import Trunix.Kernel.Strings
import Mathlib

/-!
# The order of strings

`strcmp`, `strncmp` and `memcmp` of `kernel/string.c` against the lexicographic order of
the strings as unsigned bytes.  `strncmp` and `memcmp` follow it; `strcmp` compares signed
characters, and follows it where the first two bytes that differ are on the same side of
128.
-/

set_option autoImplicit false

namespace Trunix

def strncmp : (Nat → UInt8) → (Nat → UInt8) → Nat → Int
  | _, _, 0 => 0
  | s1, s2, len + 1 =>
      if s1 0 ≠ s2 0 then (s1 0).toNat - (s2 0).toNat
      else if s1 0 = 0 then 0
      else strncmp (fun i => s1 (i + 1)) (fun i => s2 (i + 1)) len

/-- The sign of a result is the order of the strings. -/
def Orders (r : Int) (c d : List UInt8) : Prop :=
  (r < 0 ↔ c < d) ∧ (r = 0 ↔ c = d) ∧ (0 < r ↔ d < c)

/-- The first bytes in which two strings differ, the NUL of the shorter one included. -/
def differ : List UInt8 → List UInt8 → Option (UInt8 × UInt8)
  | [], [] => none
  | [], b :: _ => some (0, b)
  | a :: _, [] => some (a, 0)
  | a :: c, b :: d => if a = b then differ c d else some (a, b)

/-- Where two strings differ, both bytes are positive as a `char` or both are negative. -/
def SameSign (c d : List UInt8) : Prop :=
  ∀ a b, differ c d = some (a, b) → (a.toNat < 128 ↔ b.toNat < 128)

/-! ## One byte of the order -/

theorem lt_or_lt {a b : UInt8} (ne : a ≠ b) : a < b ∧ ¬ b < a ∨ b < a ∧ ¬ a < b := by
  have differ : a.toNat ≠ b.toNat := fun same => ne (UInt8.toNat_inj.mp same)
  rw [UInt8.lt_iff_toNat_lt, UInt8.lt_iff_toNat_lt]
  omega

theorem nul_lt {a : UInt8} (ne : a ≠ 0) : 0 < a ∧ ¬ a < 0 := by
  have value : a.toNat ≠ 0 := fun same => ne (UInt8.toNat_inj.mp same)
  rw [UInt8.lt_iff_toNat_lt, UInt8.lt_iff_toNat_lt, UInt8.toNat_zero]
  omega

theorem orders_nil : Orders 0 [] [] := by
  simp [Orders]

theorem orders_nil_cons {r : Int} {b : UInt8} {d : List UInt8} : Orders r [] (b :: d) ↔ r < 0 := by
  have less : ([] : List UInt8) < b :: d := List.nil_lt_cons b d
  have other : ¬ b :: d < ([] : List UInt8) := List.not_lt_nil _
  constructor
  · intro orders
    exact orders.1.mpr less
  · intro neg
    exact ⟨iff_of_true neg less, iff_of_false (by omega) (List.cons_ne_nil b d).symm,
      iff_of_false (by omega) other⟩

theorem orders_cons_nil {r : Int} {a : UInt8} {c : List UInt8} : Orders r (a :: c) [] ↔ 0 < r := by
  have less : ([] : List UInt8) < a :: c := List.nil_lt_cons a c
  have other : ¬ a :: c < ([] : List UInt8) := List.not_lt_nil _
  constructor
  · intro orders
    exact orders.2.2.mpr less
  · intro pos
    exact ⟨iff_of_false (by omega) other, iff_of_false (by omega) (List.cons_ne_nil a c),
      iff_of_true pos less⟩

theorem orders_cons_same {r : Int} {a : UInt8} {c d : List UInt8} :
    Orders r (a :: c) (a :: d) ↔ Orders r c d := by
  have irrefl : ¬ a < a := UInt8.lt_irrefl a
  simp only [Orders, List.cons_lt_cons_iff, irrefl, false_or, true_and, List.cons.injEq]

theorem orders_cons_ne {r : Int} {a b : UInt8} {c d : List UInt8} (ne : a ≠ b) :
    Orders r (a :: c) (b :: d) ↔ a < b ∧ r < 0 ∨ b < a ∧ 0 < r := by
  simp only [Orders, List.cons_lt_cons_iff, ne, ne.symm, false_and, or_false, List.cons.injEq, iff_false]
  rcases lt_or_lt ne with ⟨less, other⟩ | ⟨greater, other⟩
  · simp only [less, other, iff_true, iff_false, true_and, false_and, or_false]
    omega
  · simp only [greater, other, iff_true, iff_false, true_and, false_and, false_or]
    omega

theorem unsigned_sign {a b : UInt8} (ne : a ≠ b) :
    a < b ∧ (a.toNat : Int) - b.toNat < 0 ∨ b < a ∧ 0 < (a.toNat : Int) - b.toNat := by
  rcases lt_or_lt ne with ⟨less, _⟩ | ⟨greater, _⟩
  · have value := UInt8.lt_iff_toNat_lt.mp less
    exact .inl ⟨less, by omega⟩
  · have value := UInt8.lt_iff_toNat_lt.mp greater
    exact .inr ⟨greater, by omega⟩

theorem orders_nul_left {b : UInt8} {d : List UInt8} (nonzero : b ≠ 0) :
    Orders ((0 : UInt8).toNat - (b.toNat : Int)) [] (b :: d) := by
  have value := UInt8.lt_iff_toNat_lt.mp (nul_lt nonzero).1
  rw [orders_nil_cons]
  omega

theorem orders_nul_right {a : UInt8} {c : List UInt8} (nonzero : a ≠ 0) :
    Orders ((a.toNat : Int) - (0 : UInt8).toNat) (a :: c) [] := by
  have value := UInt8.lt_iff_toNat_lt.mp (nul_lt nonzero).1
  rw [orders_cons_nil]
  omega

theorem sameSign_iff {c d : List UInt8} {a b : UInt8} (found : differ c d = some (a, b)) :
    SameSign c d ↔ (a.toNat < 128 ↔ b.toNat < 128) := by
  constructor
  · intro all
    exact all a b found
  · intro same a' b' found'
    rw [found] at found'
    cases found'
    exact same

/-- The difference of two characters has their order as bytes when the signs agree. -/
theorem signed_sign {a b : UInt8} (ne : a ≠ b) :
    (a < b ∧ schar a - schar b < 0 ∨ b < a ∧ 0 < schar a - schar b) ↔
      (a.toNat < 128 ↔ b.toNat < 128) := by
  have boundA := a.toNat_lt
  have boundB := b.toNat_lt
  have differ : a.toNat ≠ b.toNat := fun same => ne (UInt8.toNat_inj.mp same)
  unfold schar
  rw [UInt8.lt_iff_toNat_lt, UInt8.lt_iff_toNat_lt]
  by_cases posA : a.toNat < 128
  · by_cases posB : b.toNat < 128
    · rw [if_pos posA, if_pos posB]
      omega
    · rw [if_pos posA, if_neg posB]
      omega
  · by_cases posB : b.toNat < 128
    · rw [if_neg posA, if_pos posB]
      omega
    · rw [if_neg posA, if_neg posB]
      omega

/-! ## The three loops -/

theorem strcmp_orders : ∀ {c d : List UInt8} {s : Nat → UInt8}, 0 ∉ c → 0 ∉ d → HoldsString s d →
    (Orders (strcmp c s) c d ↔ SameSign c d) := by
  intro c
  induction c with
  | nil =>
      intro d s _ plain string
      cases d with
      | nil =>
          have nul : s 0 = 0 := string.2
          rw [strcmp, nul]
          exact iff_of_true orders_nil (fun a b found => by cases found)
      | cons b d =>
          have first := (holdsString_cons.mp string).1
          have nonzero : (0 : UInt8) ≠ b := List.ne_of_not_mem_cons plain
          have sign := signed_sign nonzero
          obtain ⟨less, other⟩ := nul_lt nonzero.symm
          have zero : schar 0 = 0 := by decide
          simp only [less, other, true_and, false_and, or_false, zero] at sign
          have found : differ [] (b :: d) = some (0, b) := rfl
          rw [strcmp, first, orders_nil_cons, sign, sameSign_iff found]
  | cons a c ih =>
      intro d s plain plain' string
      have nonzero : a ≠ 0 := (List.ne_of_not_mem_cons plain).symm
      cases d with
      | nil =>
          have nul : s 0 = 0 := string.2
          have sign := signed_sign nonzero
          obtain ⟨less, other⟩ := nul_lt nonzero
          simp only [less, other, true_and, false_and, false_or] at sign
          have found : differ (a :: c) [] = some (a, 0) := rfl
          rw [strcmp, nul, if_neg (fun both => both.2 rfl), orders_cons_nil, sign, sameSign_iff found]
      | cons b d =>
          obtain ⟨first, later⟩ := holdsString_cons.mp string
          have nonzero' : b ≠ 0 := (List.ne_of_not_mem_cons plain').symm
          rw [strcmp, first, if_pos ⟨nonzero, nonzero'⟩]
          by_cases same : a = b
          · subst same
            rw [if_pos rfl, orders_cons_same, ih (List.not_mem_of_not_mem_cons plain)
              (List.not_mem_of_not_mem_cons plain') later]
            unfold SameSign
            rw [differ, if_pos rfl]
          · have found : differ (a :: c) (b :: d) = some (a, b) := if_neg same
            rw [if_neg same, orders_cons_ne same, signed_sign same, sameSign_iff found]

theorem strncmp_orders : ∀ {c d : List UInt8} {s1 s2 : Nat → UInt8} {len : Nat}, 0 ∉ c → 0 ∉ d →
    HoldsString s1 c → HoldsString s2 d → c.length < len → d.length < len →
    Orders (strncmp s1 s2 len) c d := by
  intro c
  induction c with
  | nil =>
      intro d s1 s2 len _ plain string1 string2 lt1 lt2
      have nul : s1 0 = 0 := string1.2
      obtain ⟨n, rfl⟩ := Nat.exists_eq_add_one_of_ne_zero (Nat.ne_of_gt (Nat.zero_lt_of_lt lt1))
      cases d with
      | nil =>
          have nul' : s2 0 = 0 := string2.2
          rw [strncmp, nul, nul', if_neg (fun ne => ne rfl), if_pos rfl]
          exact orders_nil
      | cons b d =>
          have first := (holdsString_cons.mp string2).1
          have nonzero : (0 : UInt8) ≠ b := List.ne_of_not_mem_cons plain
          rw [strncmp, nul, first, if_pos nonzero]
          exact orders_nul_left nonzero.symm
  | cons a c ih =>
      intro d s1 s2 len plain plain' string1 string2 lt1 lt2
      have nonzero : a ≠ 0 := (List.ne_of_not_mem_cons plain).symm
      obtain ⟨first1, later1⟩ := holdsString_cons.mp string1
      obtain ⟨n, rfl⟩ := Nat.exists_eq_add_one_of_ne_zero (Nat.ne_of_gt (Nat.zero_lt_of_lt lt1))
      cases d with
      | nil =>
          have nul : s2 0 = 0 := string2.2
          rw [strncmp, first1, nul, if_pos nonzero]
          exact orders_nul_right nonzero
      | cons b d =>
          obtain ⟨first2, later2⟩ := holdsString_cons.mp string2
          rw [strncmp, first1, first2]
          by_cases same : a = b
          · subst same
            rw [if_neg (fun ne => ne rfl), if_neg nonzero, orders_cons_same]
            exact ih (List.not_mem_of_not_mem_cons plain) (List.not_mem_of_not_mem_cons plain') later1
              later2 (Nat.lt_of_succ_lt_succ lt1) (Nat.lt_of_succ_lt_succ lt2)
          · rw [if_pos same, orders_cons_ne same]
            exact unsigned_sign same

theorem memcmp_orders : ∀ {c d : List UInt8} {s : Nat → UInt8}, 0 ∉ c → 0 ∉ d → HoldsString s d →
    Orders (memcmp ((c ++ [0]).take (min c.length d.length + 1)) s) c d := by
  intro c
  induction c with
  | nil =>
      intro d s _ plain string
      have taken : (([] : List UInt8) ++ [0]).take (min ([] : List UInt8).length d.length + 1) = [0] := by
        simp
      rw [taken]
      cases d with
      | nil =>
          have nul : s 0 = 0 := string.2
          rw [memcmp, nul, if_pos rfl]
          exact orders_nil
      | cons b d =>
          have first := (holdsString_cons.mp string).1
          have nonzero : (0 : UInt8) ≠ b := List.ne_of_not_mem_cons plain
          rw [memcmp, first, if_neg nonzero]
          exact orders_nul_left nonzero.symm
  | cons a c ih =>
      intro d s plain plain' string
      have nonzero : a ≠ 0 := (List.ne_of_not_mem_cons plain).symm
      cases d with
      | nil =>
          have nul : s 0 = 0 := string.2
          have taken : (a :: c ++ [0]).take (min (a :: c).length ([] : List UInt8).length + 1) = [a] := by
            simp
          rw [taken, memcmp, nul, if_neg nonzero]
          exact orders_nul_right nonzero
      | cons b d =>
          obtain ⟨first, later⟩ := holdsString_cons.mp string
          have taken : (a :: c ++ [0]).take (min (a :: c).length (b :: d).length + 1) =
              a :: (c ++ [0]).take (min c.length d.length + 1) := by
            rw [List.length_cons, List.length_cons, Nat.add_min_add_right, List.cons_append,
              List.take_succ_cons]
          rw [taken, memcmp, first]
          by_cases same : a = b
          · subst same
            rw [if_pos rfl, orders_cons_same]
            exact ih (List.not_mem_of_not_mem_cons plain) (List.not_mem_of_not_mem_cons plain') later
          · rw [if_neg same, orders_cons_ne same]
            exact unsigned_sign same

/-! ## The three results -/

/-- All three results have the sign of the order exactly when the bytes where the strings
differ have the same sign. -/
theorem comparisons_agree_iff {c d : CString} {s1 s2 : Nat → UInt8} {len : Nat}
    (string1 : HoldsString s1 c.bytes) (string2 : HoldsString s2 d.bytes)
    (long1 : c.bytes.length < len) (long2 : d.bytes.length < len) :
    (Orders (strcmp c.bytes s2) c.bytes d.bytes ∧ Orders (strncmp s1 s2 len) c.bytes d.bytes ∧
      Orders (memcmp ((c.bytes ++ [0]).take (min c.bytes.length d.bytes.length + 1)) s2) c.bytes d.bytes) ↔
    SameSign c.bytes d.bytes := by
  have bounded := strncmp_orders c.plain d.plain string1 string2 long1 long2
  have bytes := memcmp_orders c.plain d.plain string2
  rw [← strcmp_orders c.plain d.plain string2]
  constructor
  · intro all
    exact all.1
  · intro signed
    exact ⟨signed, bounded, bytes⟩

theorem comparisons_agree_iff_letters :
    Orders (strcmp [97, 98] (fun i => [97, 99].getD i 0)) [97, 98] [97, 99] := by
  have both := @comparisons_agree_iff ⟨[97, 98], by decide⟩ ⟨[97, 99], by decide⟩ _ _ 3
    (holdsString_getD [97, 98]) (holdsString_getD [97, 99]) (by decide) (by decide)
  refine (both.mpr ?_).1
  intro a b found
  cases found
  decide

/-- The byte 128 comes after `a`; `strcmp` has it before. -/
theorem strcmp_high_byte : ¬ ∀ (c d : CString) (s1 s2 : Nat → UInt8) (len : Nat),
    HoldsString s1 c.bytes → HoldsString s2 d.bytes → c.bytes.length < len → d.bytes.length < len →
    Orders (strcmp c.bytes s2) c.bytes d.bytes ∧ Orders (strncmp s1 s2 len) c.bytes d.bytes ∧
      Orders (memcmp ((c.bytes ++ [0]).take (min c.bytes.length d.bytes.length + 1)) s2) c.bytes d.bytes := by
  intro all
  have orders := (all ⟨[128], by decide⟩ ⟨[97], by decide⟩ _ _ 2 (holdsString_getD [128])
    (holdsString_getD [97]) (by decide) (by decide)).1
  have negative : strcmp [128] (fun i => [97].getD i 0) < 0 := by decide
  have before : ¬ ([128] : List UInt8) < [97] := by decide
  exact before (orders.1.mp negative)

end Trunix
