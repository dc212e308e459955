import Mathlib

/-!
# Byte-addressed memory

A memory maps every address to a byte.  Words of any width are read and written
in little-endian order, `fill` and `blit` are the bulk writes, and `Frame m m' S`
says that `m'` differs from `m` at most on the addresses in `S`.  Every write has
one frame lemma, and a load is unchanged by any write whose frame avoids it.
-/

set_option autoImplicit false

namespace Trunix.Lib

abbrev Mem := Nat → UInt8

/-- The value of the `n` bytes from `a` on, least significant byte first. -/
def loadLE (m : Mem) : Nat → Nat → Nat
  | 0, _ => 0
  | n + 1, a => (m a).toNat + 256 * loadLE m n (a + 1)

def storeLE (m : Mem) (n a v : Nat) : Mem := fun x =>
  if a ≤ x ∧ x < a + n then UInt8.ofNat (v / 256 ^ (x - a)) else m x

def fill (m : Mem) (a n : Nat) (b : UInt8) : Mem := fun x =>
  if a ≤ x ∧ x < a + n then b else m x

/-- The `n` bytes from `a` on become `src 0`, `src 1`, and so on. -/
def blit (m : Mem) (a n : Nat) (src : Nat → UInt8) : Mem := fun x =>
  if a ≤ x ∧ x < a + n then src (x - a) else m x

def load32 (m : Mem) (a : Nat) : Nat := loadLE m 4 a

def load16 (m : Mem) (a : Nat) : Nat := loadLE m 2 a

def store32 (m : Mem) (a v : Nat) : Mem := storeLE m 4 a v

def store16 (m : Mem) (a v : Nat) : Mem := storeLE m 2 a v

/-! ## Loads -/

theorem loadLE_lt (m : Mem) : ∀ n a, loadLE m n a < 256 ^ n := by
  intro n
  induction n with
  | zero => intro a; simp [loadLE]
  | succ n ih =>
      intro a
      have head := (m a).toNat_lt
      have tail := ih (a + 1)
      simp only [loadLE, Nat.pow_succ]
      omega

theorem load32_lt (m : Mem) (a : Nat) : load32 m a < 4294967296 := loadLE_lt m 4 a

theorem loadLE_congr (m m' : Mem) : ∀ n a, (∀ x, a ≤ x → x < a + n → m' x = m x) →
    loadLE m' n a = loadLE m n a := by
  intro n
  induction n with
  | zero => intro a _; rfl
  | succ n ih =>
      intro a same
      have tail := ih (a + 1) (fun x lo hi => same x (by omega) (by omega))
      simp only [loadLE, tail, same a (by omega) (by omega)]

theorem load32_congr {m m' : Mem} {a : Nat} (same : ∀ x, a ≤ x → x < a + 4 → m' x = m x) :
    load32 m' a = load32 m a := loadLE_congr m m' 4 a same

theorem load16_congr {m m' : Mem} {a : Nat} (same : ∀ x, a ≤ x → x < a + 2 → m' x = m x) :
    load16 m' a = load16 m a := loadLE_congr m m' 2 a same

/-- A memory that holds the digits of `v` reads back as `v`, cut to the width. -/
theorem loadLE_of_digits (m : Mem) : ∀ n a v,
    (∀ i, i < n → m (a + i) = UInt8.ofNat (v / 256 ^ i)) → loadLE m n a = v % 256 ^ n := by
  intro n
  induction n with
  | zero => intro a v _; simp [loadLE, Nat.mod_one]
  | succ n ih =>
      intro a v digits
      have head := digits 0 (by omega)
      have tail := ih (a + 1) (v / 256) (by
        intro i bound
        have digit := digits (i + 1) (by omega)
        rw [Nat.pow_succ', ← Nat.div_div_eq_div_mul] at digit
        rw [Nat.add_right_comm, Nat.add_assoc]
        exact digit)
      simp only [Nat.add_zero, Nat.pow_zero, Nat.div_one] at head
      have width : 256 ^ (n + 1) = 256 * 256 ^ n := Nat.pow_succ'
      rw [loadLE, head, tail, UInt8.toNat_ofNat', width, Nat.mod_mul]

theorem loadLE_storeLE_same (m : Mem) (n a v : Nat) :
    loadLE (storeLE m n a v) n a = v % 256 ^ n := by
  apply loadLE_of_digits
  intro i bound
  simp [storeLE, bound]

theorem digit_loadLE (m : Mem) : ∀ n a i, i < n →
    UInt8.ofNat (loadLE m n a / 256 ^ i) = m (a + i) := by
  intro n
  induction n with
  | zero =>
      intro a i bound
      exact absurd bound (Nat.not_lt_zero i)
  | succ n ih =>
      intro a i bound
      have head := (m a).toNat_lt
      cases i with
      | zero =>
          apply UInt8.toNat_inj.mp
          simp only [loadLE, Nat.pow_zero, Nat.div_one, UInt8.toNat_ofNat', Nat.add_zero]
          omega
      | succ i =>
          have tail := ih (a + 1) i (by omega)
          have shift : loadLE m (n + 1) a / 256 = loadLE m n (a + 1) := by
            simp only [loadLE]
            omega
          rw [Nat.pow_succ', ← Nat.div_div_eq_div_mul, shift, tail]
          congr 1
          omega

theorem storeLE_loadLE (m : Mem) (n a : Nat) : storeLE m n a (loadLE m n a) = m := by
  funext x
  by_cases inside : a ≤ x ∧ x < a + n
  · have digit := digit_loadLE m n a (x - a) (by omega)
    have index : a + (x - a) = x := by omega
    rw [index] at digit
    simp only [storeLE, if_pos inside, digit]
  · simp only [storeLE, if_neg inside]

@[simp] theorem load32_store32_same (m : Mem) (a v : Nat) :
    load32 (store32 m a v) a = v % 4294967296 := loadLE_storeLE_same m 4 a v

@[simp] theorem load16_store16_same (m : Mem) (a v : Nat) :
    load16 (store16 m a v) a = v % 65536 := loadLE_storeLE_same m 2 a v

/-! ## Frames -/

/-- `m'` agrees with `m` off the addresses in `S`. -/
def Frame (m m' : Mem) (S : Set Nat) : Prop := ∀ x, x ∉ S → m' x = m x

theorem Frame.refl (m : Mem) (S : Set Nat) : Frame m m S := fun _ _ => rfl

theorem Frame.mono {m m' : Mem} {S T : Set Nat} (h : Frame m m' S) (sub : S ⊆ T) :
    Frame m m' T := fun x out => h x (fun mem => out (sub mem))

theorem Frame.trans {m₁ m₂ m₃ : Mem} {S : Set Nat} (h : Frame m₁ m₂ S) (h' : Frame m₂ m₃ S) :
    Frame m₁ m₃ S := fun x out => (h' x out).trans (h x out)

theorem storeLE_frame (m : Mem) (n a v : Nat) :
    Frame m (storeLE m n a v) (Set.Ico a (a + n)) := by
  intro x out
  simp only [Set.mem_Ico] at out
  simp [storeLE, out]

theorem store32_frame (m : Mem) (a v : Nat) : Frame m (store32 m a v) (Set.Ico a (a + 4)) :=
  storeLE_frame m 4 a v

theorem store16_frame (m : Mem) (a v : Nat) : Frame m (store16 m a v) (Set.Ico a (a + 2)) :=
  storeLE_frame m 2 a v

theorem fill_frame (m : Mem) (a n : Nat) (b : UInt8) :
    Frame m (fill m a n b) (Set.Ico a (a + n)) := by
  intro x out
  simp only [Set.mem_Ico] at out
  simp [fill, out]

theorem blit_frame (m : Mem) (a n : Nat) (src : Nat → UInt8) :
    Frame m (blit m a n src) (Set.Ico a (a + n)) := by
  intro x out
  simp only [Set.mem_Ico] at out
  simp [blit, out]

theorem blit_congr {m : Mem} {a n : Nat} {src src' : Nat → UInt8} (same : ∀ i < n, src i = src' i) :
    blit m a n src = blit m a n src' := by
  funext x
  unfold blit
  split
  · exact same _ (by omega)
  · rfl

theorem Frame.loadLE_eq {m m' : Mem} {S : Set Nat} (h : Frame m m' S) {n a : Nat}
    (out : ∀ x, a ≤ x → x < a + n → x ∉ S) : loadLE m' n a = loadLE m n a :=
  loadLE_congr m m' n a (fun x lo hi => h x (out x lo hi))

theorem Frame.load32_eq {m m' : Mem} {S : Set Nat} (h : Frame m m' S) {a : Nat}
    (out : ∀ x, a ≤ x → x < a + 4 → x ∉ S) : load32 m' a = load32 m a :=
  h.loadLE_eq out

theorem load32_store32_of_apart (m : Mem) {a b v : Nat} (apart : a + 4 ≤ b ∨ b + 4 ≤ a) :
    load32 (store32 m a v) b = load32 m b := by
  apply (store32_frame m a v).load32_eq
  intro x lo hi mem
  simp only [Set.mem_Ico] at mem
  omega

end Trunix.Lib
