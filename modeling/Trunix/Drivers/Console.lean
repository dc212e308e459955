import Trunix.Vm

/-!
# The console

The driver of `drivers/video/console/console.c`.  Every character is drawn as a scaled block of
pixels at a cursor that all processes share.  What the driver reads in its font and writes to
the framebuffer is kept as a list, in the order of the code.
-/

set_option autoImplicit false

namespace Trunix

open Trunix.Lib

/-- A `struct fbdev` without the colours, which the driver does not look at. -/
structure Fbdev where
  addr : Nat
  pitch : Nat
  width : Nat
  height : Nat
  bpp : Nat
  deriving DecidableEq, Repr

def fontW : Nat := 8

def fontH : Nat := 13

def scale : Nat := 2

def cellW : Nat := fontW * scale

def cellH : Nat := fontH * scale

def glyphs : Nat := 128

def Fbdev.coord (fb : Fbdev) (x y : Nat) : Nat := u32 (fb.addr + (y * fb.pitch + x * (fb.bpp / 8)))

inductive Access where
  /-- a read of `FONT[c][y]` -/
  | font (c : Int) (y : Nat)
  /-- a store of the pixel at an address -/
  | pixel (addr value : Nat)
  deriving DecidableEq, Repr

/-- The font; next to it lies other data of the kernel. -/
abbrev Font := Int → Nat → Nat

/-- `char` is signed. -/
def charOf (b : UInt8) : Int := if b.toNat < 128 then b.toNat else (b.toNat : Int) - 256

def dot (row x : Nat) : Nat := if row &&& 2 ^ (fontW - 1 - x % fontW) ≠ 0 then 0xFFFFFFFF else 0

def fbconchar (font : Font) (fb : Fbdev) (xpos ypos : Nat) (c : Int) : List Access :=
  (List.range fontH).flatMap fun y => (List.range fontW).flatMap fun x =>
    let px := scale * x + xpos * cellW
    let py := scale * y + ypos * cellH
    (List.range scale).flatMap fun i => (List.range scale).flatMap fun j =>
      [.font c y, .pixel (fb.coord (px + i) (py + j)) (dot (font c y) x)]

/-- The static variables `x` and `y` of `fbcon_write`. -/
structure Cursor where
  x : Nat
  y : Nat
  deriving DecidableEq, Repr

def Fbdev.cols (fb : Fbdev) : Nat := fb.width / cellW

/-- One round of the loop of `fbcon_write`. -/
def fbconByte (font : Font) (fb : Fbdev) (c : Cursor) (b : UInt8) : Cursor × List Access :=
  if fb.cols < c.x ∨ b = 10 then (⟨0, c.y + 1⟩, [])
  else if b = 8 ∧ 0 < c.x then (⟨c.x - 1, c.y⟩, [])
  else (⟨c.x + 1, c.y⟩, fbconchar font fb c.x c.y (charOf b))

def fbconBytes (font : Font) (fb : Fbdev) : Cursor → List UInt8 → Cursor × List Access
  | c, [] => (c, [])
  | c, b :: rest =>
      let (c, drawn) := fbconByte font fb c b
      let (c, more) := fbconBytes font fb c rest
      (c, drawn ++ more)

/-- `fbcon_write`; `data` is what the open file leads to, if anything. -/
def fbconWrite (font : Font) (data : Option Fbdev) (c : Cursor) (buf : List UInt8) :
    Int × Cursor × List Access :=
  match data with
  | none => (-1, c, [])
  | some fb => (0, fbconBytes font fb c buf)

structure Screen where
  cursor : Cursor
  accesses : List Access

def Screen.boot : Screen := ⟨⟨0, 0⟩, []⟩

structure WriteCall where
  opened : Bool
  buf : List UInt8

/-- All processes write to the same framebuffer. -/
def Screen.write (font : Font) (fb : Fbdev) (s : Screen) (w : WriteCall) : Except Halt Screen :=
  let (_, c, drawn) := fbconWrite font (if w.opened then some fb else none) s.cursor w.buf
  .ok ⟨c, s.accesses ++ drawn⟩

/-! ## Inside the font and the framebuffer -/

def Access.Inside (fb : Fbdev) : Access → Prop
  | .font c y => 0 ≤ c ∧ c < glyphs ∧ y < fontH
  | .pixel addr _ => fb.addr ≤ addr ∧ addr < fb.addr + fb.pitch * fb.height

def Fbdev.last (fb : Fbdev) (x y : Nat) : Nat :=
  (cellH * y + (cellH - 1)) * fb.pitch + (cellW * x + (cellW - 1)) * (fb.bpp / 8)

structure Fbdev.Fits (fb : Fbdev) (x y : Nat) : Prop where
  cell : fb.last x y < fb.pitch * fb.height
  space : fb.addr + fb.pitch * fb.height ≤ 0x100000000

section Cell

variable {font : Font} {fb : Fbdev} {xpos ypos : Nat} {c : Int}

theorem mem_fbconchar {a : Access} (mem : a ∈ fbconchar font fb xpos ypos c) :
    (∃ y < fontH, a = .font c y) ∨ ∃ u < cellW, ∃ v < cellH, ∃ value,
      a = .pixel (fb.coord (cellW * xpos + u) (cellH * ypos + v)) value := by
  unfold fbconchar at mem
  simp only [List.mem_flatMap, List.mem_range, List.mem_cons, List.not_mem_nil, or_false] at mem
  obtain ⟨y, row, x, col, i, left, j, top, read | store⟩ := mem
  · exact Or.inl ⟨y, row, read⟩
  · simp only [fontH, fontW, scale] at row col left top
    refine Or.inr ⟨2 * x + i, ?_, 2 * y + j, ?_, dot (font c y) x, ?_⟩
    · simp only [cellW, fontW, scale]
      omega
    · simp only [cellH, fontH, scale]
      omega
    · rw [store, Nat.mul_comm cellW, Nat.mul_comm cellH, ← Nat.add_assoc, ← Nat.add_assoc]
      simp only [scale, Nat.add_comm]

theorem font_mem_fbconchar {y : Nat} (row : y < fontH) :
    Access.font c y ∈ fbconchar font fb xpos ypos c := by
  unfold fbconchar
  simp only [List.mem_flatMap, List.mem_range]
  exact ⟨y, row, 0, by decide, 0, by decide, 0, by decide, List.mem_cons_self⟩

/-- The dot at the right end of the last row of the font is drawn last. -/
theorem pixel_mem_fbconchar : ∃ value, Access.pixel
    (fb.coord (cellW * xpos + (cellW - 1)) (cellH * ypos + (cellH - 1))) value ∈
      fbconchar font fb xpos ypos c := by
  unfold fbconchar
  simp only [List.mem_flatMap, List.mem_range]
  refine ⟨dot (font c 12) 7, 12, by decide, 7, by decide, 1, by decide, 1, by decide, ?_⟩
  have right : cellW * xpos + (cellW - 1) = scale * 7 + xpos * cellW + 1 := by
    simp only [cellW, fontW, scale]
    omega
  have bottom : cellH * ypos + (cellH - 1) = scale * 12 + ypos * cellH + 1 := by
    simp only [cellH, fontH, scale]
    omega
  rw [right, bottom]
  exact List.mem_cons_of_mem _ List.mem_cons_self

theorem Fbdev.offset_le (fb : Fbdev) (xpos ypos : Nat) {u v : Nat} (left : u < cellW) (top : v < cellH) :
    (cellH * ypos + v) * fb.pitch + (cellW * xpos + u) * (fb.bpp / 8) ≤ fb.last xpos ypos := by
  unfold Fbdev.last
  have rows : (cellH * ypos + v) * fb.pitch ≤ (cellH * ypos + (cellH - 1)) * fb.pitch :=
    Nat.mul_le_mul_right _ (by omega)
  have cols : (cellW * xpos + u) * (fb.bpp / 8) ≤ (cellW * xpos + (cellW - 1)) * (fb.bpp / 8) :=
    Nat.mul_le_mul_right _ (by omega)
  exact Nat.add_le_add rows cols

theorem Fbdev.Fits.inside (fits : fb.Fits xpos ypos) (low : 0 ≤ c) (high : c < glyphs) :
    ∀ a ∈ fbconchar font fb xpos ypos c, a.Inside fb := by
  intro a mem
  rcases mem_fbconchar mem with ⟨y, row, rfl⟩ | ⟨u, left, v, top, value, rfl⟩
  · exact ⟨low, high, row⟩
  · have offset := fb.offset_le xpos ypos left top
    have cell := fits.cell
    have space := fits.space
    unfold Access.Inside Fbdev.coord
    rw [u32_of_lt (by omega)]
    omega

/-- Where no address wraps, these conditions are also necessary. -/
theorem fbconchar_inside_iff (unwrapped : fb.addr + fb.last xpos ypos < 0x100000000) :
    (∀ a ∈ fbconchar font fb xpos ypos c, a.Inside fb) ↔
      (0 ≤ c ∧ c < glyphs) ∧ fb.last xpos ypos < fb.pitch * fb.height := by
  constructor
  · intro inside
    obtain ⟨low, high, _⟩ := inside _ (font_mem_fbconchar (y := 0) (by decide))
    obtain ⟨value, mem⟩ : ∃ value, Access.pixel
        (fb.coord (cellW * xpos + (cellW - 1)) (cellH * ypos + (cellH - 1))) value ∈
          fbconchar font fb xpos ypos c := pixel_mem_fbconchar
    obtain ⟨_, below⟩ := inside _ mem
    change u32 (fb.addr + fb.last xpos ypos) < _ at below
    rw [u32_of_lt unwrapped] at below
    exact ⟨⟨low, high⟩, Nat.lt_of_add_lt_add_left below⟩
  · rintro ⟨⟨low, high⟩, cell⟩ a mem
    rcases mem_fbconchar mem with ⟨y, row, rfl⟩ | ⟨u, left, v, top, value, rfl⟩
    · exact ⟨low, high, row⟩
    · have offset := fb.offset_le xpos ypos left top
      unfold Access.Inside Fbdev.coord
      rw [u32_of_lt (by omega)]
      omega

end Cell

theorem charOf_of_lt {b : UInt8} (h : b.toNat < glyphs) : charOf b = b.toNat := if_pos h

theorem Fbdev.fits_of_grid {fb : Fbdev} {x y : Nat} (space : fb.addr + fb.pitch * fb.height ≤ 0x100000000)
    (wide : fb.width * (fb.bpp / 8) ≤ fb.pitch) (deep : 8 ≤ fb.bpp) (col : x < fb.cols)
    (row : y < fb.height / cellH) : fb.Fits x y := by
  refine ⟨?_, space⟩
  have right : cellW * x + cellW ≤ fb.width := by
    have := Nat.mul_le_of_le_div cellW (x + 1) fb.width col
    rw [Nat.add_mul, Nat.one_mul, Nat.mul_comm x] at this
    exact this
  have bottom : cellH * y + cellH ≤ fb.height := by
    have := Nat.mul_le_of_le_div cellH (y + 1) fb.height row
    rw [Nat.add_mul, Nat.one_mul, Nat.mul_comm y] at this
    exact this
  have bytes : 0 < fb.bpp / 8 := Nat.div_pos deep (by decide)
  have inRow : (cellW * x + (cellW - 1)) * (fb.bpp / 8) < fb.pitch := by
    have cellWidth : cellW = 16 := rfl
    calc (cellW * x + (cellW - 1)) * (fb.bpp / 8)
        < fb.width * (fb.bpp / 8) := Nat.mul_lt_mul_of_pos_right (by omega) bytes
      _ ≤ fb.pitch := wide
  have cellHeight : cellH = 26 := rfl
  calc fb.last x y
      < (cellH * y + (cellH - 1)) * fb.pitch + fb.pitch := Nat.add_lt_add_left inRow _
    _ = (cellH * y + (cellH - 1) + 1) * fb.pitch := (Nat.succ_mul _ _).symm
    _ ≤ fb.height * fb.pitch := Nat.mul_le_mul_right _ (by omega)
    _ = fb.pitch * fb.height := Nat.mul_comm _ _

/-! ## Runs of the console -/

def Cursor.next (fb : Fbdev) (c : Cursor) (b : UInt8) : Cursor :=
  if fb.cols < c.x ∨ b = 10 then ⟨0, c.y + 1⟩
  else if b = 8 ∧ 0 < c.x then ⟨c.x - 1, c.y⟩
  else ⟨c.x + 1, c.y⟩

def Cursor.Draws (fb : Fbdev) (c : Cursor) (b : UInt8) : Prop :=
  c.x ≤ fb.cols ∧ b ≠ 10 ∧ ¬ (b = 8 ∧ 0 < c.x)

def Cursor.Meets (fb : Fbdev) : Cursor → List UInt8 → Prop
  | _, [] => True
  | c, b :: rest =>
      (c.Draws fb b → b.toNat < glyphs ∧ fb.Fits c.x c.y) ∧ (c.next fb b).Meets fb rest

def Screen.Meets (fb : Fbdev) (s : Screen) (w : WriteCall) : Prop := w.opened → s.cursor.Meets fb w.buf

section Runs

variable {font : Font} {fb : Fbdev}

theorem fbconByte_next (c : Cursor) (b : UInt8) : (fbconByte font fb c b).1 = c.next fb b := by
  unfold fbconByte Cursor.next
  split
  · rfl
  · split <;> rfl

theorem fbconByte_inside {c : Cursor} {b : UInt8}
    (meets : c.Draws fb b → b.toNat < glyphs ∧ fb.Fits c.x c.y) :
    ∀ a ∈ (fbconByte font fb c b).2, a.Inside fb := by
  intro a mem
  unfold fbconByte at mem
  split at mem
  · cases mem
  · rename_i line
    split at mem
    · cases mem
    · rename_i back
      rw [not_or, Nat.not_lt] at line
      obtain ⟨glyph, fits⟩ := meets ⟨line.1, line.2, back⟩
      rw [charOf_of_lt glyph] at mem
      exact fits.inside (Int.natCast_nonneg _) (Int.ofNat_lt.mpr glyph) a mem

theorem fbconBytes_inside {c : Cursor} {buf : List UInt8} (meets : c.Meets fb buf) :
    ∀ a ∈ (fbconBytes font fb c buf).2, a.Inside fb := by
  induction buf generalizing c with
  | nil =>
      intro a mem
      cases mem
  | cons b rest ih =>
      obtain ⟨first, others⟩ := meets
      intro a mem
      unfold fbconBytes at mem
      rcases List.mem_append.mp mem with drawn | more
      · exact fbconByte_inside first a drawn
      · rw [fbconByte_next] at more
        exact ih others a more

theorem fbconBytes_newlines (n y : Nat) :
    fbconBytes font fb ⟨0, y⟩ (List.replicate n 10) = (⟨0, y + n⟩, []) := by
  induction n generalizing y with
  | zero => rfl
  | succ n ih =>
      have line : fbconByte font fb ⟨0, y⟩ 10 = (⟨0, y + 1⟩, []) := by
        unfold fbconByte
        rw [if_pos (Or.inr rfl)]
      rw [List.replicate_succ, fbconBytes, line]
      simp only [ih, List.nil_append, Nat.add_assoc, Nat.add_comm 1 n]

theorem Screen.write_drawn {s : Screen} {b : UInt8} (draws : s.cursor.Draws fb b) :
    Screen.write font fb s ⟨true, [b]⟩ = .ok ⟨⟨s.cursor.x + 1, s.cursor.y⟩,
      s.accesses ++ fbconchar font fb s.cursor.x s.cursor.y (charOf b)⟩ := by
  obtain ⟨line, newline, back⟩ := draws
  have drawn : fbconByte font fb s.cursor b =
      (⟨s.cursor.x + 1, s.cursor.y⟩, fbconchar font fb s.cursor.x s.cursor.y (charOf b)) := by
    unfold fbconByte
    rw [if_neg (not_or.mpr ⟨Nat.not_lt.mpr line, newline⟩), if_neg back]
  unfold Screen.write fbconWrite
  simp only [if_true, fbconBytes, drawn, List.append_nil]

/-- In every run of calls whose drawn bytes have a glyph and a cell that fits, the console reads
in its font and writes to its framebuffer only. -/
theorem console_inside {s : Screen} (run : Runs (Screen.write font fb) (Screen.Meets fb) .boot s) :
    ∀ a ∈ s.accesses, a.Inside fb := by
  refine run.invariant (fun s => ∀ a ∈ s.accesses, a.Inside fb) ?_ ?_
  · intro a mem
    cases mem
  · intro s w s' inside meets done a mem
    cases done
    rcases List.mem_append.mp mem with old | new
    · exact inside a old
    · split at new
      · cases new
      · rename_i fb' opened
        split at opened
        · rename_i isOpen
          cases opened
          exact fbconBytes_inside (meets isOpen) a new
        · cases opened

end Runs

/-! ## A small screen -/

def smallFb : Fbdev where
  addr := 0xFD000000
  pitch := 4096
  width := 1024
  height := 768
  bpp := 32

/-- A line in the grid of cells. -/
theorem console_inside_first : ∃ s, Screen.write (fun _ _ => 0) smallFb .boot ⟨true, [104, 105, 10]⟩ = .ok s ∧
    ∀ a ∈ s.accesses, a.Inside smallFb := by
  refine ⟨_, rfl, ?_⟩
  have grid : ∀ x < smallFb.cols, smallFb.Fits x 0 := fun x col =>
    Fbdev.fits_of_grid (by decide) (by decide) (by decide) col (by decide)
  refine console_inside (.snoc ⟨true, [104, 105, 10]⟩ .refl (fun _ => ⟨?_, ?_, ?_, trivial⟩) rfl)
  · intro drawn
    exact ⟨by decide, grid 0 (by decide)⟩
  · intro drawn
    exact ⟨by decide, grid 1 (by decide)⟩
  · intro drawn
    exact absurd rfl drawn.2.1

/-- The first byte that is no character of the font, and the first line below the screen. -/
theorem console_leaves : ∃ s₁ s₂ s₃,
    Screen.write (fun _ _ => 0) smallFb .boot ⟨true, [0xE9]⟩ = .ok s₁ ∧
      (∃ a ∈ s₁.accesses, ¬ a.Inside smallFb) ∧
    Screen.write (fun _ _ => 0) smallFb .boot ⟨true, List.replicate 29 10⟩ = .ok s₂ ∧
      Screen.write (fun _ _ => 0) smallFb s₂ ⟨true, [65]⟩ = .ok s₃ ∧
        ∃ a ∈ s₃.accesses, ¬ a.Inside smallFb := by
  have first : Cursor.Draws smallFb ⟨0, 0⟩ 0xE9 := ⟨by decide, by decide, by decide⟩
  have second : Cursor.Draws smallFb ⟨0, 29⟩ 65 := ⟨by decide, by decide, by decide⟩
  have down : Screen.write (fun _ _ => 0) smallFb .boot ⟨true, List.replicate 29 10⟩ =
      .ok ⟨⟨0, 29⟩, []⟩ := by
    unfold Screen.write fbconWrite Screen.boot
    simp only [if_true, fbconBytes_newlines, List.append_nil, Nat.zero_add]
  refine ⟨_, _, _, Screen.write_drawn first, ?_, down, Screen.write_drawn second, ?_⟩
  · refine ⟨.font (charOf 0xE9) 0, ?_, ?_⟩
    · exact List.mem_append_right _ (font_mem_fbconchar (by decide))
    · intro inside
      have low : (0 : Int) ≤ charOf 0xE9 := inside.1
      exact absurd low (by decide)
  · by_contra none
    simp only [List.nil_append] at none
    have inside : ∀ a ∈ fbconchar (fun _ _ => 0) smallFb 0 29 (charOf 65), a.Inside smallFb := by
      intro a mem
      by_contra outside
      exact none ⟨a, mem, outside⟩
    have cell := ((fbconchar_inside_iff (by decide)).mp inside).2
    exact absurd cell (by decide)

end Trunix
