import Trunix.Lib.Stores
import Trunix.Drivers.Console
import Mathlib

/-!
# The pixels of a character

What `fbconchar` leaves in the memory of a framebuffer with 32 bits for a pixel.  Every
pixel of the cell gets the colour of its dot in the font, four pixels to a dot, and nothing
else is written.
-/

set_option autoImplicit false

namespace Trunix

open Trunix.Lib

def storesOf : List Access → List (Nat × Nat)
  | [] => []
  | .font _ _ :: rest => storesOf rest
  | .pixel addr value :: rest => (addr, value) :: storesOf rest

def drawChar (font : Font) (fb : Fbdev) (xpos ypos : Nat) (c : Int) (m : Mem) : Mem :=
  storeAll (storesOf (fbconchar font fb xpos ypos c)) m

/-- A framebuffer in a mode with 32 bits for a pixel, as the driver assumes it. -/
structure Fbdev.Deep (fb : Fbdev) : Prop where
  bpp : fb.bpp = 32
  pitch : 4 * fb.width ≤ fb.pitch
  space : fb.addr + fb.pitch * fb.height ≤ 4294967296

structure Fbdev.HasCell (fb : Fbdev) (xpos ypos : Nat) : Prop where
  right : (xpos + 1) * cellW ≤ fb.width
  bottom : (ypos + 1) * cellH ≤ fb.height

def InCell (xpos ypos x y : Nat) : Prop :=
  (xpos * cellW ≤ x ∧ x < (xpos + 1) * cellW) ∧ ypos * cellH ≤ y ∧ y < (ypos + 1) * cellH

theorem mem_storesOf {addr value : Nat} : ∀ {l : List Access},
    (addr, value) ∈ storesOf l ↔ Access.pixel addr value ∈ l := by
  intro l
  induction l with
  | nil => exact iff_of_false List.not_mem_nil List.not_mem_nil
  | cons a rest ih =>
      cases a with
      | font c y =>
          rw [storesOf, ih, List.mem_cons]
          constructor
          · exact Or.inr
          · intro mem
            exact mem.resolve_left nofun
      | pixel addr' value' => rw [storesOf, List.mem_cons, List.mem_cons, ih, Prod.mk.injEq, Access.pixel.injEq]

/-- The bit of the font for a dot, the leftmost dot in the highest bit. -/
theorem dot_eq (row : Nat) {x : Nat} (col : x < fontW) :
    dot row x = if row.testBit (7 - x) then 0xFFFFFFFF else 0 := by
  have width : fontW = 8 := rfl
  have same : fontW - 1 - x % fontW = 7 - x := by
    rw [Nat.mod_eq_of_lt col, width]
  unfold dot
  rw [same, Nat.and_two_pow]
  cases row.testBit (7 - x) with
  | false => simp
  | true => simp

def cellStore (font : Font) (fb : Fbdev) (xpos ypos : Nat) (c : Int) (x y : Nat) : Nat × Nat :=
  (fb.coord x y, dot (font c ((y - ypos * cellH) / scale)) ((x - xpos * cellW) / scale))

/-- The loops reach every pixel of the cell, and no other. -/
theorem mem_cell_stores {font : Font} {fb : Fbdev} {xpos ypos : Nat} {c : Int} {s : Nat × Nat} :
    s ∈ storesOf (fbconchar font fb xpos ypos c) ↔
      ∃ x y, InCell xpos ypos x y ∧ s = cellStore font fb xpos ypos c x y := by
  obtain ⟨addr, value⟩ := s
  rw [mem_storesOf]
  unfold fbconchar InCell cellStore
  simp only [List.mem_flatMap, List.mem_range, List.mem_cons, List.not_mem_nil, or_false, reduceCtorEq,
    false_or, Access.pixel.injEq]
  simp only [cellW, cellH, fontW, fontH, scale]
  constructor
  · rintro ⟨row, rowLt, col, colLt, i, left, j, top, rfl, rfl⟩
    refine ⟨2 * col + xpos * (8 * 2) + i, 2 * row + ypos * (13 * 2) + j, by omega, ?_⟩
    have rowOf : (2 * row + ypos * (13 * 2) + j - ypos * (13 * 2)) / 2 = row := by omega
    have colOf : (2 * col + xpos * (8 * 2) + i - xpos * (8 * 2)) / 2 = col := by omega
    rw [rowOf, colOf]
  · rintro ⟨x, y, inside, same⟩
    obtain ⟨rfl, rfl⟩ := Prod.mk.inj same
    refine ⟨(y - ypos * (13 * 2)) / 2, by omega, (x - xpos * (8 * 2)) / 2, by omega,
      (x - xpos * (8 * 2)) % 2, by omega, (y - ypos * (13 * 2)) % 2, by omega, ?_, rfl⟩
    have col : x = 2 * ((x - xpos * (8 * 2)) / 2) + xpos * (8 * 2) + (x - xpos * (8 * 2)) % 2 := by omega
    have row : y = 2 * ((y - ypos * (13 * 2)) / 2) + ypos * (13 * 2) + (y - ypos * (13 * 2)) % 2 := by omega
    rw [← col, ← row]

section Screen

variable {fb : Fbdev} (deep : fb.Deep)
include deep

theorem coord_eq {x y : Nat} (right : x < fb.width) (bottom : y < fb.height) :
    fb.coord x y = fb.addr + (y * fb.pitch + 4 * x) ∧ y * fb.pitch + 4 * x + 4 ≤ (y + 1) * fb.pitch := by
  have wide := deep.pitch
  have space := deep.space
  have row : (y + 1) * fb.pitch ≤ fb.pitch * fb.height := by
    rw [Nat.mul_comm fb.pitch]
    exact Nat.mul_le_mul_right _ bottom
  have next : (y + 1) * fb.pitch = y * fb.pitch + fb.pitch := Nat.succ_mul y fb.pitch
  have bytes : x * (fb.bpp / 8) = 4 * x := by
    rw [deep.bpp]
    omega
  unfold Fbdev.coord
  rw [bytes, u32_of_lt (by omega)]
  exact ⟨rfl, by omega⟩

theorem coord_apart {x y x' y' : Nat} (right : x < fb.width) (bottom : y < fb.height)
    (right' : x' < fb.width) (bottom' : y' < fb.height) (other : ¬ (x = x' ∧ y = y')) :
    fb.coord x y + 4 ≤ fb.coord x' y' ∨ fb.coord x' y' + 4 ≤ fb.coord x y := by
  obtain ⟨addr, inRow⟩ := coord_eq deep right bottom
  obtain ⟨addr', inRow'⟩ := coord_eq deep right' bottom'
  rw [addr, addr']
  rcases Nat.lt_trichotomy y y' with above | same | below
  · have rows : (y + 1) * fb.pitch ≤ y' * fb.pitch := Nat.mul_le_mul_right _ above
    exact .inl (by omega)
  · subst same
    omega
  · have rows : (y' + 1) * fb.pitch ≤ y * fb.pitch := Nat.mul_le_mul_right _ below
    exact .inr (by omega)

omit deep in
theorem InCell.onScreen {xpos ypos x y : Nat} (cell : fb.HasCell xpos ypos) (inside : InCell xpos ypos x y) :
    x < fb.width ∧ y < fb.height :=
  ⟨Nat.lt_of_lt_of_le inside.1.2 cell.right, Nat.lt_of_lt_of_le inside.2.2 cell.bottom⟩

theorem cell_coherent (font : Font) {xpos ypos : Nat} (cell : fb.HasCell xpos ypos) (c : Int) :
    Coherent (storesOf (fbconchar font fb xpos ypos c)) := by
  intro s mem t mem'
  obtain ⟨x, y, inside, rfl⟩ := mem_cell_stores.mp mem
  obtain ⟨x', y', inside', rfl⟩ := mem_cell_stores.mp mem'
  by_cases same : x = x' ∧ y = y'
  · rw [same.1, same.2]
    exact .inl rfl
  · have screen := inside.onScreen cell
    have screen' := inside'.onScreen cell
    exact .inr (coord_apart deep screen.1 screen.2 screen'.1 screen'.2 same)

/-- A byte that two cells write belongs to the same cell. -/
theorem cells_apart (font : Font) {xpos ypos xpos' ypos' : Nat} (cell : fb.HasCell xpos ypos)
    (cell' : fb.HasCell xpos' ypos') (other : ¬ (xpos = xpos' ∧ ypos = ypos')) (c c' : Int) :
    ∀ a ∈ storedBytes (storesOf (fbconchar font fb xpos ypos c)),
      a ∉ storedBytes (storesOf (fbconchar font fb xpos' ypos' c')) := by
  rintro a ⟨s, mem, lo, hi⟩ ⟨t, mem', lo', hi'⟩
  obtain ⟨x, y, inside, rfl⟩ := mem_cell_stores.mp mem
  obtain ⟨x', y', inside', rfl⟩ := mem_cell_stores.mp mem'
  have screen := inside.onScreen cell
  have screen' := inside'.onScreen cell'
  have differ : ¬ (x = x' ∧ y = y') := by
    rintro ⟨rfl, rfl⟩
    simp only [InCell, cellW, cellH, fontW, fontH, scale] at inside inside'
    omega
  have apart := coord_apart deep screen.1 screen.2 screen'.1 screen'.2 differ
  simp only [cellStore] at lo hi lo' hi'
  omega

end Screen

/-- Every pixel of the cell gets the colour of its dot, no other byte changes, and the
characters of two cells can be drawn in either order. -/
theorem fbconchar_draws_cell {fb : Fbdev} (deep : fb.Deep) (font : Font) {xpos ypos : Nat}
    (cell : fb.HasCell xpos ypos) (c : Int) (m : Mem) :
    (∀ x y, InCell xpos ypos x y →
      load32 (drawChar font fb xpos ypos c m) (fb.coord x y) =
        if (font c ((y - ypos * cellH) / scale)).testBit (7 - (x - xpos * cellW) / scale) then 0xFFFFFFFF
        else 0) ∧
    (∀ a, (∀ x y, InCell xpos ypos x y → a < fb.coord x y ∨ fb.coord x y + 4 ≤ a) →
      drawChar font fb xpos ypos c m a = m a) ∧
    ∀ xpos' ypos' c', fb.HasCell xpos' ypos' → ¬ (xpos = xpos' ∧ ypos = ypos') →
      drawChar font fb xpos' ypos' c' (drawChar font fb xpos ypos c m) =
        drawChar font fb xpos ypos c (drawChar font fb xpos' ypos' c' m) := by
  refine ⟨fun x y inside => ?_, fun a out => ?_, fun xpos' ypos' c' cell' other => ?_⟩
  · have mem : cellStore font fb xpos ypos c x y ∈ storesOf (fbconchar font fb xpos ypos c) :=
      mem_cell_stores.mpr ⟨x, y, inside, rfl⟩
    have word := (cell_coherent deep font cell c).load_eq m mem
    have col : (x - xpos * cellW) / scale < fontW := by
      simp only [InCell, cellW, fontW, scale] at inside ⊢
      omega
    simp only [cellStore, dot_eq _ col] at word
    rw [drawChar, word]
    split
    · rfl
    · rfl
  · apply storeAll_frame
    rintro ⟨s, mem, lo, hi⟩
    obtain ⟨x, y, inside, rfl⟩ := mem_cell_stores.mp mem
    have away := out x y inside
    simp only [cellStore] at lo hi
    omega
  · exact storeAll_comm (cells_apart deep font cell cell' other c c') m

theorem smallFb_deep : smallFb.Deep := ⟨rfl, by decide, by decide⟩

/-- The first two cells of a small screen. -/
theorem fbconchar_draws_cell_first :
    drawChar (fun _ _ => 255) smallFb 1 0 66 (drawChar (fun _ _ => 255) smallFb 0 0 65 fun _ => 0) =
      drawChar (fun _ _ => 255) smallFb 0 0 65 (drawChar (fun _ _ => 255) smallFb 1 0 66 fun _ => 0) :=
  (fbconchar_draws_cell smallFb_deep (fun _ _ => 255) ⟨by decide, by decide⟩ 65 fun _ => 0).2.2 1 0 66
    ⟨by decide, by decide⟩ (by decide)

end Trunix
