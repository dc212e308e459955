import Trunix.Kernel.Half
import Mathlib

/-!
# The framebuffer in the first directory

The last loop of `pg_identity` starts at the slot of the framebuffer and runs over as many
slots as its rounded size has.  A framebuffer that does not start on 4 MiB can have bytes in
one slot more, and the end wraps around when the rounded size reaches 4 GiB; the bytes that
are left out belong to the kernel half then and translate to another address.
-/

set_option autoImplicit false

namespace Trunix

open Trunix.Lib

def Large (m : Mem) (pd i : Nat) : Prop :=
  present m pd i ∧ load32 m (pd + 4 * i) / 0x80 % 2 = 1

/-- Each byte of the framebuffer is at its own address, and the slots without such a byte
are those of the kernel. -/
structure IdentityMap (m : Mem) (pd fb size : Nat) : Prop where
  framebuffer : ∀ x, fb ≤ x → x < fb + size → Large m pd (x / 0x400000) ∧ walk m pd x = some x
  others : ∀ x < 0x100000000, (∀ y, fb ≤ y → y < fb + size → y / 0x400000 ≠ x / 0x400000) →
    walk m pd x = some (if kernelOffset ≤ x then x - kernelOffset else x)

/-- There is no framebuffer byte, or all lie below the kernel half; or the last piece of at most
4 MiB, put at the offset the framebuffer has in its first slot, stays within one slot, and the
rounded size does not reach 4 GiB. -/
def FramebufferFits (fb size : Nat) : Prop :=
  size = 0 ∨ fb + size ≤ kernelOffset ∨
    (fb % 0x400000 + (size - 1) % 0x400000 < 0x400000 ∧
      fb + ((size - 1) / 0x400000 + 1) * 0x400000 < 0x100000000)

instance (fb size : Nat) : Decidable (FramebufferFits fb size) :=
  inferInstanceAs (Decidable (_ ∨ _ ∨ _ ∧ _))

/-! ## The slots -/

def framebufferEnd (fb size : Nat) : Nat := u32 (fb + roundup (u32 size) 0x400000) / 0x400000

def Covered (fb size i : Nat) : Prop := fb / 0x400000 ≤ i ∧ i < framebufferEnd fb size

instance (fb size i : Nat) : Decidable (Covered fb size i) := inferInstanceAs (Decidable (_ ∧ _))

theorem identityEntry_eq {i : Nat} (slot : i < 1024) : identityEntry i = i * 0x400000 + 0x83 := by
  have word : u32 (i * 0x400000) = 2 ^ 22 * i := by
    rw [u32_of_lt (by omega)]
    omega
  have flags : 0x0080 ||| (0x0002 ||| 0x0001) = 0x83 := rfl
  rw [identityEntry, word, Nat.or_assoc, Nat.or_assoc, flags, ← Nat.two_pow_add_eq_or_of_lt (by decide)]
  omega

theorem kernelEntry_eq {i : Nat} (high : 512 ≤ i) (slot : i < 1024) :
    kernelEntry i = (i - 512) * 0x400000 + 0x183 := by
  have offset : kernelOffset = 0x80000000 := rfl
  have word : u32 (u32 (i * 0x400000) + kernelOffset) = 2 ^ 22 * (i - 512) := by
    simp only [u32, offset]
    omega
  have flags : 0x0100 ||| (0x0080 ||| (0x0002 ||| 0x0001)) = 0x183 := rfl
  rw [kernelEntry, word, Nat.or_assoc, Nat.or_assoc, Nat.or_assoc, flags,
    ← Nat.two_pow_add_eq_or_of_lt (by decide)]
  omega

theorem pgIdentity_load (pd fb pitch height : Nat) (m : Mem) {i : Nat} (slot : i < 1024) :
    load32 (pgIdentity pd fb pitch height m) (pd + 4 * i) =
      if Covered fb (pitch * height) i ∨ i < 512 then i * 0x400000 + 0x83
      else (i - 512) * 0x400000 + 0x183 := by
  have half : kernelOffset / 0x400000 = 512 := rfl
  have first : 0 ≤ i ∧ i < 0 + 1024 := by omega
  have same : (fb / 0x400000 ≤ i ∧
      i < fb / 0x400000 + (framebufferEnd fb (pitch * height) - fb / 0x400000)) ↔
      Covered fb (pitch * height) i := by
    unfold Covered
    omega
  have identity : u32 (identityEntry i) = i * 0x400000 + 0x83 := by
    rw [identityEntry_eq slot, u32_of_lt (by omega)]
  simp only [pgIdentity]
  rw [writeEntries_load, writeEntries_load, if_pos first, half, ← framebufferEnd, if_congr same rfl rfl]
  by_cases covered : Covered fb (pitch * height) i
  · rw [if_pos covered, if_pos (.inl covered)]
    exact identity
  · rw [if_neg covered]
    by_cases low : i < 512
    · rw [if_neg (by omega), if_pos (.inr low)]
      exact identity
    · have neither : ¬ (Covered fb (pitch * height) i ∨ i < 512) := by
        rintro (one | other)
        · exact covered one
        · exact low other
      rw [if_pos (by omega), if_neg neither, kernelEntry_eq (by omega) slot, u32_of_lt (by omega)]

theorem large_walk {m : Mem} {pd x frame flags : Nat}
    (entry : load32 m (pd + 4 * (x / 0x400000)) = frame * 0x400000 + flags)
    (small : flags < 0x400000) (bits : flags % 2 = 1 ∧ flags / 0x80 % 2 = 1) :
    Large m pd (x / 0x400000) ∧ walk m pd x = some (frame * 0x400000 + x % 0x400000) := by
  have odd : (frame * 0x400000 + flags) % 2 = 1 := by omega
  have size : (frame * 0x400000 + flags) / 0x80 % 2 = 1 := by omega
  have number : (frame * 0x400000 + flags) / 0x400000 = frame := by omega
  constructor
  · rw [Large, present, entry]
    exact ⟨odd, size⟩
  · simp only [walk, entry]
    rw [if_neg (by omega), if_pos size, number]

/-- The directory maps every address with 4 MiB; the slots that are covered or low map to
themselves. -/
theorem pgIdentity_walk (pd fb pitch height : Nat) (m : Mem) {x : Nat} (word : x < 0x100000000) :
    Large (pgIdentity pd fb pitch height m) pd (x / 0x400000) ∧
    walk (pgIdentity pd fb pitch height m) pd x =
      some (if Covered fb (pitch * height) (x / 0x400000) ∨ x < kernelOffset then x
        else x - kernelOffset) := by
  have offset : kernelOffset = 0x80000000 := rfl
  have slot : x / 0x400000 < 1024 := by omega
  have entry := pgIdentity_load pd fb pitch height m slot
  have low : x / 0x400000 < 512 ↔ x < kernelOffset := by omega
  rw [if_congr (or_congr Iff.rfl low) rfl rfl] at entry
  by_cases self : Covered fb (pitch * height) (x / 0x400000) ∨ x < kernelOffset
  · rw [if_pos self] at entry
    have whole : x / 0x400000 * 0x400000 + x % 0x400000 = x := Nat.div_add_mod' x 0x400000
    have mapped := large_walk entry (by decide) (by decide)
    rw [whole] at mapped
    rw [if_pos self]
    exact mapped
  · rw [if_neg self] at entry
    have high : ¬ x < kernelOffset := fun below => self (.inr below)
    have moved : (x / 0x400000 - 512) * 0x400000 + x % 0x400000 = x - kernelOffset := by omega
    have mapped := large_walk entry (by decide) (by decide)
    rw [moved] at mapped
    rw [if_neg self]
    exact mapped

/-! ## The covered slots -/

/-- Where the last loop stops: behind the rounded size, or not behind its start when the sum or
the size itself wraps around. -/
theorem covered_slots {fb size : Nat} (fits : fb + size ≤ 0x100000000) (pos : 0 < size) :
    let rounded := ((size - 1) / 0x400000 + 1) * 0x400000
    (fb + rounded < 0x100000000 → framebufferEnd fb size = (fb + rounded) / 0x400000) ∧
    (0x100000000 ≤ fb + rounded → framebufferEnd fb size ≤ fb / 0x400000) := by
  intro rounded
  have least : size ≤ rounded ∧ rounded < size + 0x400000 ∧ rounded % 0x400000 = 0 := by
    simp only [rounded]
    omega
  obtain ⟨above, close, whole⟩ := least
  have up : roundup (u32 size) 0x400000 = u32 rounded := by
    simp only [u32]
    by_cases even : size % 0x100000000 % 0x400000 = 0
    · rw [roundup_of_dvd even]
      omega
    · simp only [roundup, u32]
      rw [if_neg even]
      omega
  rw [framebufferEnd, up]
  simp only [u32]
  constructor
  · intro small
    rw [Nat.mod_eq_of_lt (by omega : rounded < 0x100000000), Nat.mod_eq_of_lt small]
  · intro wraps
    omega

theorem Covered.byte {fb size i : Nat} (fits : fb + size ≤ 0x100000000) (covered : Covered fb size i) :
    ∃ y, fb ≤ y ∧ y < fb + size ∧ y / 0x400000 = i := by
  obtain ⟨start, stop⟩ := covered
  rcases Nat.eq_zero_or_pos size with none | pos
  · have empty : framebufferEnd fb 0 ≤ fb / 0x400000 := by
      have zero : roundup (u32 0) 0x400000 = 0 := rfl
      rw [framebufferEnd, zero]
      simp only [u32]
      omega
    rw [none] at stop
    omega
  · obtain ⟨straight, wrapped⟩ := covered_slots fits pos
    by_cases small : fb + ((size - 1) / 0x400000 + 1) * 0x400000 < 0x100000000
    · rw [straight small] at stop
      by_cases first : i = fb / 0x400000
      · exact ⟨fb, Nat.le_refl _, by omega, first.symm⟩
      · exact ⟨i * 0x400000, by omega, by omega, by omega⟩
    · have none := wrapped (by omega)
      omega

/-- The last byte of the framebuffer is covered, or below the kernel half, exactly when the
framebuffer fits. -/
theorem framebufferFits_iff {fb size : Nat} (fits : fb + size ≤ 0x100000000) (pos : 0 < size) :
    FramebufferFits fb size ↔
      Covered fb size ((fb + size - 1) / 0x400000) ∨ fb + size ≤ kernelOffset := by
  obtain ⟨straight, wrapped⟩ := covered_slots fits pos
  unfold FramebufferFits Covered
  by_cases small : fb + ((size - 1) / 0x400000 + 1) * 0x400000 < 0x100000000
  · rw [straight small]
    omega
  · have stop := wrapped (by omega)
    omega

/-- The framebuffer is mapped to itself, and nothing else is, exactly when it fits. -/
theorem pgIdentity_identityMap_iff (pd fb pitch height : Nat) (m : Mem)
    (fits : fb + pitch * height ≤ 0x100000000) :
    IdentityMap (pgIdentity pd fb pitch height m) pd fb (pitch * height) ↔
      FramebufferFits fb (pitch * height) := by
  have offset : kernelOffset = 0x80000000 := rfl
  have walked := fun x => @pgIdentity_walk pd fb pitch height m x
  generalize pgIdentity pd fb pitch height m = m' at walked ⊢
  generalize pitch * height = size at fits walked ⊢
  constructor
  · intro map
    rcases Nat.eq_zero_or_pos size with none | pos
    · exact .inl none
    -- the last byte of the framebuffer decides
    have last := (map.framebuffer (fb + size - 1) (by omega) (by omega)).2
    rw [(walked (fb + size - 1) (by omega)).2] at last
    rw [framebufferFits_iff fits pos]
    by_contra out
    have kernel : ¬ (Covered fb size ((fb + size - 1) / 0x400000) ∨ fb + size - 1 < kernelOffset) := by
      rintro (covered | below)
      · exact out (.inl covered)
      · exact out (.inr (by omega))
    rw [if_neg kernel] at last
    have same := Option.some.inj last
    omega
  · intro good
    refine ⟨?_, ?_⟩
    · intro x low high
      obtain ⟨large, at'⟩ := walked x (by omega)
      refine ⟨large, ?_⟩
      have self : Covered fb size (x / 0x400000) ∨ x < kernelOffset := by
        rcases (framebufferFits_iff fits (by omega)).mp good with covered | below
        · left
          have last := covered.2
          exact ⟨by omega, by omega⟩
        · right
          omega
      rw [at', if_pos self]
    · intro x word free
      rw [(walked x word).2]
      have plain : ¬ Covered fb size (x / 0x400000) := by
        intro covered
        obtain ⟨y, low, high, same⟩ := covered.byte fits
        exact free y low high same
      by_cases below : x < kernelOffset
      · rw [if_pos (.inr below), if_neg (by omega)]
      · have neither : ¬ (Covered fb size (x / 0x400000) ∨ x < kernelOffset) := by
          rintro (covered | low)
          · exact plain covered
          · exact below low
        rw [if_neg neither, if_pos (by omega)]

/-- A framebuffer of 1024 lines on a boundary of 4 MiB. -/
theorem pgIdentity_identityMap_iff_aligned :
    IdentityMap (pgIdentity 0x80101000 0xE0000000 0x1000 0x400 fun _ => 0) 0x80101000 0xE0000000 0x400000 :=
  (pgIdentity_identityMap_iff 0x80101000 0xE0000000 0x1000 0x400 (fun _ => 0) (by decide)).mpr (by decide)

/-- One that starts a MiB further on: the last MiB is left to the kernel half. -/
theorem pgIdentity_shifted :
    ¬ ∀ (pd fb pitch height : Nat) (m : Mem), fb + pitch * height ≤ 0x100000000 →
      IdentityMap (pgIdentity pd fb pitch height m) pd fb (pitch * height) := by
  intro all
  have map := all 0x80101000 0xE0100000 0x1000 0x400 (fun _ => 0) (by decide)
  have last := (map.framebuffer 0xE0400000 (by decide) (by decide)).2
  rw [(@pgIdentity_walk 0x80101000 0xE0100000 0x1000 0x400 (fun _ => 0) 0xE0400000 (by decide)).2] at last
  revert last
  decide

end Trunix
