import Trunix.Lib.Bytes
import Trunix.Lib.Copy
import Mathlib

/-!
# memmove

The routine `memmove` of `kernel/string.S`, and of `lib/libc/string/memmove.S`, which has
the same instructions.  `repMovsb` is the instruction `rep movsb`; `back` is the direction
flag.  The comparison that picks the direction is signed, and copies upwards where the
destination is the greater one.
-/

set_option autoImplicit false

namespace Trunix

open Trunix.Lib

/-- One `movsb` for each round of `ecx`. -/
def repMovsb (back : Bool) : Nat → UInt32 → UInt32 → Mem → Mem
  | 0, _, _, m => m
  | ecx + 1, edi, esi, m =>
      repMovsb back ecx (if back then edi - 1 else edi + 1) (if back then esi - 1 else esi + 1)
        (Function.update m edi.toNat (m esi.toNat))

/-- The body of both routines. -/
def moveBytes (m : Mem) (dst src n : UInt32) : Mem :=
  if src.toInt32 < dst.toInt32 then repMovsb false n.toNat dst src m
  else repMovsb true n.toNat (dst + (n - 1)) (src + (n - 1)) m

def memmove (m : Mem) (dst src n : UInt32) : Mem := moveBytes m dst src n

def Libc.memmove (m : Mem) (dst src n : UInt32) : Mem := moveBytes m dst src n

/-! ## The instruction as a copy loop -/

theorem repMovsb_up : ∀ (ecx : Nat) (edi esi : UInt32) (m : Mem), edi.toNat + ecx ≤ 4294967296 →
    esi.toNat + ecx ≤ 4294967296 → repMovsb false ecx edi esi m = copyUp ecx edi.toNat esi.toNat m := by
  intro ecx
  induction ecx with
  | zero => intro edi esi m _ _; rfl
  | succ ecx ih =>
      intro edi esi m fitsD fitsS
      rw [repMovsb, copyUp]
      simp only [Bool.false_eq_true, if_false]
      cases ecx with
      | zero => rfl
      | succ ecx =>
          have nextD : (edi + 1).toNat = edi.toNat + 1 := by
            rw [UInt32.toNat_add, UInt32.toNat_one]
            omega
          have nextS : (esi + 1).toNat = esi.toNat + 1 := by
            rw [UInt32.toNat_add, UInt32.toNat_one]
            omega
          rw [ih (edi + 1) (esi + 1) _ (by omega) (by omega), nextD, nextS]

theorem repMovsb_down : ∀ (ecx : Nat) (edi esi : UInt32) (d s : Nat) (m : Mem),
    (ecx ≠ 0 → edi.toNat + 1 = d + ecx) → (ecx ≠ 0 → esi.toNat + 1 = s + ecx) →
    repMovsb true ecx edi esi m = copyDown ecx d s m := by
  intro ecx
  induction ecx with
  | zero => intro edi esi d s m _ _; rfl
  | succ ecx ih =>
      intro edi esi d s m atD atS
      have lastD := atD (Nat.succ_ne_zero ecx)
      have lastS := atS (Nat.succ_ne_zero ecx)
      have cellD : edi.toNat = d + ecx := by omega
      have cellS : esi.toNat = s + ecx := by omega
      rw [repMovsb, copyDown, cellD, cellS]
      simp only [if_true]
      apply ih
      · intro more
        have before : (edi - 1).toNat = edi.toNat - 1 := by
          have one : (1 : UInt32) ≤ edi := by
            rw [UInt32.le_iff_toNat_le, UInt32.toNat_one]
            omega
          rw [UInt32.toNat_sub_of_le _ _ one, UInt32.toNat_one]
        omega
      · intro more
        have before : (esi - 1).toNat = esi.toNat - 1 := by
          have one : (1 : UInt32) ≤ esi := by
            rw [UInt32.le_iff_toNat_le, UInt32.toNat_one]
            omega
          rw [UInt32.toNat_sub_of_le _ _ one, UInt32.toNat_one]
        omega

def LowHalf (a : UInt32) : Prop := a.toNat < 2147483648

instance (a : UInt32) : Decidable (LowHalf a) := inferInstanceAs (Decidable (_ < _))

theorem toInt_toInt32 (a : UInt32) :
    a.toInt32.toInt = if LowHalf a then (a.toNat : Int) else a.toNat - 4294967296 := by
  have bound := a.toNat_lt
  have value : a.toInt32.toInt = Int.bmod a.toNat 4294967296 := by
    show a.toBitVec.toInt = _
    rw [BitVec.toInt_eq_toNat_bmod]
    rfl
  rw [value, Int.bmod_def]
  by_cases low : LowHalf a
  · rw [if_pos low]
    unfold LowHalf at low
    omega
  · rw [if_neg low]
    unfold LowHalf at low
    omega

theorem toInt32_lt_iff (a b : UInt32) : a.toInt32 < b.toInt32 ↔
    (LowHalf a ↔ LowHalf b) ∧ a.toNat < b.toNat ∨ ¬ LowHalf a ∧ LowHalf b := by
  have boundA := a.toNat_lt
  have boundB := b.toNat_lt
  rw [Int32.lt_iff_toInt_lt, toInt_toInt32, toInt_toInt32]
  by_cases lowA : LowHalf a
  · by_cases lowB : LowHalf b
    · rw [if_pos lowA, if_pos lowB]
      simp only [lowA, lowB, true_and, not_true_eq_false, false_and, or_false]
      omega
    · rw [if_pos lowA, if_neg lowB]
      simp only [lowA, lowB, iff_false, not_true_eq_false, false_and, or_false]
      omega
  · by_cases lowB : LowHalf b
    · rw [if_neg lowA, if_pos lowB]
      simp only [lowA, lowB, false_and, not_false_eq_true, true_and, or_true, iff_true]
      omega
    · rw [if_neg lowA, if_neg lowB]
      simp only [lowA, lowB, true_and, and_false, or_false]
      omega

/-! ## When the routine moves its range -/

theorem moveBytes_eq {m : Mem} {dst src n : UInt32} (fitsD : dst.toNat + n.toNat ≤ 4294967296)
    (fitsS : src.toNat + n.toNat ≤ 4294967296) :
    moveBytes m dst src n =
      if src.toInt32 < dst.toInt32 then copyUp n.toNat dst.toNat src.toNat m
      else copyDown n.toNat dst.toNat src.toNat m := by
  have top : ∀ a : UInt32, a.toNat + n.toNat ≤ 4294967296 → n.toNat ≠ 0 →
      (a + (n - 1)).toNat + 1 = a.toNat + n.toNat := by
    intro a fits some
    have one : (1 : UInt32) ≤ n := by
      rw [UInt32.le_iff_toNat_le, UInt32.toNat_one]
      omega
    have before : (n - 1).toNat = n.toNat - 1 := UInt32.toNat_sub_of_le _ _ one
    rw [UInt32.toNat_add]
    omega
  unfold moveBytes
  rw [repMovsb_up _ _ _ _ fitsD fitsS,
    repMovsb_down _ _ _ dst.toNat src.toNat _ (top dst fitsD) (top src fitsS)]

def distance (dst src : UInt32) : Nat := (dst.toNat - src.toNat) + (src.toNat - dst.toNat)

theorem moveBytes_moved {m : Mem} {dst src n : UInt32} (fitsD : dst.toNat + n.toNat ≤ 4294967296)
    (fitsS : src.toNat + n.toNat ≤ 4294967296) :
    Moved m (moveBytes m dst src n) dst.toNat src.toNat n.toNat ↔
      ¬ (LowHalf dst ↔ LowHalf src) ∨ Repeats m src.toNat n.toNat (distance dst src) := by
  rw [moveBytes_eq fitsD fitsS]
  by_cases up : src.toInt32 < dst.toInt32
  · rw [if_pos up, copyUp_moved]
    rcases (toInt32_lt_iff src dst).mp up with ⟨same, above⟩ | ⟨high, low⟩
    · have further : distance dst src = dst.toNat - src.toNat := by
        unfold distance
        omega
      rw [further]
      constructor
      · intro safe
        exact .inr (safe.resolve_left (by omega))
      · intro safe
        exact .inr (safe.resolve_left (fun apart => apart same.symm))
    · have below : dst.toNat ≤ src.toNat := by
        unfold LowHalf at high low
        omega
      exact iff_of_true (.inl below) (.inl fun same => high (same.mp low))
  · rw [if_neg up, copyDown_moved]
    by_cases same : LowHalf dst ↔ LowHalf src
    · have below : dst.toNat ≤ src.toNat := by
        rw [toInt32_lt_iff, not_or, not_and] at up
        exact Nat.not_lt.mp (up.1 same.symm)
      have further : distance dst src = src.toNat - dst.toNat := by
        unfold distance
        omega
      rw [further]
      constructor
      · rintro (above | repeats)
        · have equal : src.toNat - dst.toNat = 0 := by omega
          rw [equal]
          exact .inr (Repeats.zero _ _ _)
        · exact .inr repeats
      · intro safe
        exact .inr (safe.resolve_left (fun apart => apart same))
    · have above : src.toNat ≤ dst.toNat := by
        rw [toInt32_lt_iff, not_or] at up
        unfold LowHalf at same up
        omega
      exact iff_of_true (.inl above) (.inl same)

/-- Both routines move the range exactly when the pointers are in different halves of the
address space or the source repeats at the distance of the ranges, which it does where the
ranges are the same or do not overlap. -/
theorem memmove_moves_iff {m : Mem} {dst src n : UInt32} (fitsD : dst.toNat + n.toNat ≤ 4294967296)
    (fitsS : src.toNat + n.toNat ≤ 4294967296) :
    (Moved m (memmove m dst src n) dst.toNat src.toNat n.toNat ↔
      ¬ (LowHalf dst ↔ LowHalf src) ∨ Repeats m src.toNat n.toNat (distance dst src)) ∧
    (Moved m (Libc.memmove m dst src n) dst.toNat src.toNat n.toNat ↔
      ¬ (LowHalf dst ↔ LowHalf src) ∨ Repeats m src.toNat n.toNat (distance dst src)) :=
  ⟨moveBytes_moved fitsD fitsS, moveBytes_moved fitsD fitsS⟩

def markedMem (a : Nat) : Mem := Function.update (fun _ => 0) a 1

theorem memmove_moves_iff_apart :
    Moved (markedMem 4096) (memmove (markedMem 4096) 8192 4096 16) 8192 4096 16 := by
  have fits : (8192 : UInt32).toNat + (16 : UInt32).toNat ≤ 4294967296 := by decide
  have fits' : (4096 : UInt32).toNat + (16 : UInt32).toNat ≤ 4294967296 := by decide
  have apart : (16 : UInt32).toNat ≤ distance 8192 4096 := by decide
  exact (memmove_moves_iff fits fits').1.mpr (.inr (Repeats.of_le apart))

/-- Two bytes to the next address: the second one is lost. -/
theorem memmove_loses_byte : ¬ ∀ (m : Mem) (dst src n : UInt32),
    dst.toNat + n.toNat ≤ 4294967296 → src.toNat + n.toNat ≤ 4294967296 →
    Moved m (memmove m dst src n) dst.toNat src.toNat n.toNat ∧
      Moved m (Libc.memmove m dst src n) dst.toNat src.toNat n.toNat := by
  intro all
  have moved := (all (markedMem 1) 2 1 2 (by decide) (by decide)).1.1 1 (by decide)
  have lost : memmove (markedMem 1) 2 1 2 3 ≠ markedMem 1 2 := by decide
  exact lost moved

/-- Every memory is moved rightly by some calls only: the pointers are in different
halves, or equal, or the ranges do not overlap. -/
theorem memmove_every_memory {dst src n : UInt32} (fitsD : dst.toNat + n.toNat ≤ 4294967296)
    (fitsS : src.toNat + n.toNat ≤ 4294967296) :
    (∀ m, Moved m (memmove m dst src n) dst.toNat src.toNat n.toNat) ↔
      ¬ (LowHalf dst ↔ LowHalf src) ∨ dst = src ∨ n.toNat ≤ distance dst src := by
  constructor
  · intro all
    by_cases same : LowHalf dst ↔ LowHalf src
    · refine .inr ?_
      have repeats := ((moveBytes_moved fitsD fitsS).mp (all (markedMem src.toNat))).resolve_left
        (fun apart => apart same)
      by_contra neither
      obtain ⟨differ, close⟩ := not_or.mp neither
      have turn := repeats 0 (by omega)
      have other : src.toNat + (0 + distance dst src) ≠ src.toNat := by
        intro equal
        have value : dst.toNat = src.toNat := by
          unfold distance at equal
          omega
        exact differ (UInt32.toNat_inj.mp value)
      rw [markedMem, Function.update_of_ne other, Nat.add_zero, Function.update_self] at turn
      exact absurd turn (by decide)
    · exact .inl same
  · intro safe m
    apply (moveBytes_moved fitsD fitsS).mpr
    rcases safe with differ | rfl | apart
    · exact .inl differ
    · have none : distance dst dst = 0 := by
        unfold distance
        omega
      rw [none]
      exact .inr (Repeats.zero _ _ _)
    · exact .inr (Repeats.of_le apart)

/-- Where the ranges do not overlap the routine is the write of a whole range. -/
theorem memmove_blit {m : Mem} {dst src n : UInt32} (fitsD : dst.toNat + n.toNat ≤ 4294967296)
    (fitsS : src.toNat + n.toNat ≤ 4294967296) (apart : n.toNat ≤ distance dst src) :
    memmove m dst src n = blit m dst.toNat n.toNat (fun i => m (src.toNat + i)) := by
  have moved := (moveBytes_moved fitsD fitsS).mpr (.inr (Repeats.of_le (m := m) apart))
  apply moved.unique
  refine ⟨fun i lt => ?_, fun x out => blit_frame _ _ _ _ x out⟩
  have inside : dst.toNat ≤ dst.toNat + i ∧ dst.toNat + i < dst.toNat + n.toNat := by omega
  have index : dst.toNat + i - dst.toNat = i := by omega
  unfold blit
  rw [if_pos inside, index]

end Trunix
