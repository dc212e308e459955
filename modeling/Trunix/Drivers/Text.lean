import Trunix.Drivers.Console
import Mathlib

/-!
# Lines of text

Which cells `fbcon_write` draws, call by call of `fbconchar`, against a screen of text on
which a full line goes on in the next row.  The driver tests `x > cols` before it draws, so
that a byte that comes when the line is full is drawn behind the last column, and the byte
after it is lost in the test.
-/

set_option autoImplicit false

namespace Trunix

open Trunix.Lib

abbrev Drawn := Cursor × UInt8

/-- One round of the loop of `fbcon_write`, with the call of `fbconchar` in place of what it
writes. -/
def fbconCell (fb : Fbdev) (c : Cursor) (b : UInt8) : Cursor × List Drawn :=
  if fb.cols < c.x ∨ b = 10 then (⟨0, c.y + 1⟩, [])
  else if b = 8 ∧ 0 < c.x then (⟨c.x - 1, c.y⟩, [])
  else (⟨c.x + 1, c.y⟩, [(c, b)])

def fbconCells (fb : Fbdev) : Cursor → List UInt8 → Cursor × List Drawn
  | c, [] => (c, [])
  | c, b :: rest =>
      let (c, drawn) := fbconCell fb c b
      let (c, more) := fbconCells fb c rest
      (c, drawn ++ more)

def fbconCalls (fb : Fbdev) : Cursor → List (List UInt8) → Cursor × List Drawn
  | c, [] => (c, [])
  | c, buf :: rest =>
      let (c, drawn) := fbconCells fb c buf
      let (c, more) := fbconCalls fb c rest
      (c, drawn ++ more)

def Drawn.accesses (font : Font) (fb : Fbdev) (d : Drawn) : List Access :=
  fbconchar font fb d.1.x d.1.y (charOf d.2)

/-! ## A screen of text -/

/-- Where the next byte is drawn: behind a full line in the next row. -/
def Cursor.place (cols : Nat) (c : Cursor) : Cursor := if c.x < cols then c else ⟨0, c.y + 1⟩

def textByte (cols : Nat) (c : Cursor) (b : UInt8) : Cursor × List Drawn :=
  if b = 10 then (⟨0, c.y + 1⟩, [])
  else if b = 8 ∧ 0 < c.x then (⟨c.x - 1, c.y⟩, [])
  else (⟨(c.place cols).x + 1, (c.place cols).y⟩, [(c.place cols, b)])

def text (cols : Nat) : Cursor → List UInt8 → List Drawn
  | _, [] => []
  | c, b :: rest => (textByte cols c b).2 ++ text cols (textByte cols c b).1 rest

/-- No byte is drawn when the line is full; `x` is the column of the cursor. -/
def LinesFit (cols : Nat) : Nat → List UInt8 → Prop
  | _, [] => True
  | x, b :: rest =>
      if b = 10 then LinesFit cols 0 rest
      else if b = 8 ∧ 0 < x then LinesFit cols (x - 1) rest
      else x < cols ∧ LinesFit cols (x + 1) rest

/-- Newlines, and backspaces that find something to go back to, draw nothing. -/
def Cursor.Moves (c : Cursor) (b : UInt8) : Prop := b = 10 ∨ b = 8 ∧ 0 < c.x

theorem text_columns {cols : Nat} (some : 0 < cols) : ∀ (buf : List UInt8) (c : Cursor),
    ∀ d ∈ text cols c buf, d.1.x < cols := by
  intro buf
  induction buf with
  | nil => intro c d mem; cases mem
  | cons b rest ih =>
      intro c d mem
      rcases List.mem_append.mp mem with first | later
      · unfold textByte at first
        split at first
        · cases first
        · split at first
          · cases first
          · rw [List.mem_singleton.mp first]
            unfold Cursor.place
            split
            · assumption
            · exact some
      · exact ih _ d later

/-- Every byte that does not move the cursor is drawn once, before those behind it. -/
theorem text_drawn {cols : Nat} {c : Cursor} {b : UInt8} (draws : ¬ c.Moves b) (rest : List UInt8) :
    text cols c (b :: rest) =
      (c.place cols, b) :: text cols ⟨(c.place cols).x + 1, (c.place cols).y⟩ rest := by
  obtain ⟨newline, back⟩ := not_or.mp draws
  rw [text, textByte, if_neg newline, if_neg back]
  rfl

/-! ## The driver -/

section Driver

variable {fb : Fbdev}

theorem fbconBytes_cells (font : Font) : ∀ (buf : List UInt8) (c : Cursor),
    fbconBytes font fb c buf =
      ((fbconCells fb c buf).1, (fbconCells fb c buf).2.flatMap (Drawn.accesses font fb)) := by
  intro buf
  induction buf with
  | nil => intro c; rfl
  | cons b rest ih =>
      intro c
      have byte : fbconByte font fb c b =
          ((fbconCell fb c b).1, (fbconCell fb c b).2.flatMap (Drawn.accesses font fb)) := by
        unfold fbconByte fbconCell
        split
        · rfl
        · split
          · rfl
          · rw [List.flatMap_singleton]
            rfl
      rw [fbconBytes, byte]
      simp only [ih, fbconCells, List.flatMap_append]

theorem fbconCells_append : ∀ (buf more : List UInt8) (c : Cursor),
    fbconCells fb c (buf ++ more) =
      ((fbconCells fb (fbconCells fb c buf).1 more).1,
        (fbconCells fb c buf).2 ++ (fbconCells fb (fbconCells fb c buf).1 more).2) := by
  intro buf
  induction buf with
  | nil => intro more c; rfl
  | cons b rest ih =>
      intro more c
      simp only [List.cons_append, fbconCells, ih, List.append_assoc]

/-- The calls draw what one call with all of the bytes draws. -/
theorem fbconCalls_flatten : ∀ (calls : List (List UInt8)) (c : Cursor),
    fbconCalls fb c calls = fbconCells fb c calls.flatten := by
  intro calls
  induction calls with
  | nil => intro c; rfl
  | cons buf rest ih =>
      intro c
      rw [fbconCalls, List.flatten_cons, fbconCells_append]
      simp only [ih]

/-- The driver draws the text as long as no byte comes to a full line. -/
theorem fbconCells_text_iff : ∀ (buf : List UInt8) (c : Cursor), c.x ≤ fb.cols →
    ((fbconCells fb c buf).2 = text fb.cols c buf ↔ LinesFit fb.cols c.x buf) := by
  intro buf
  induction buf with
  | nil => intro c _; exact iff_of_true rfl trivial
  | cons b rest ih =>
      intro c le
      have notPast : ¬ fb.cols < c.x := Nat.not_lt.mpr le
      by_cases newline : b = 10
      · have round : fbconCell fb c b = (⟨0, c.y + 1⟩, []) := if_pos (Or.inr newline)
        have byte : textByte fb.cols c b = (⟨0, c.y + 1⟩, []) := if_pos newline
        simp only [fbconCells, round, text, byte, List.nil_append, LinesFit, if_pos newline]
        exact ih ⟨0, c.y + 1⟩ (Nat.zero_le _)
      · have noLine : ¬ (fb.cols < c.x ∨ b = 10) := not_or.mpr ⟨notPast, newline⟩
        by_cases back : b = 8 ∧ 0 < c.x
        · have round : fbconCell fb c b = (⟨c.x - 1, c.y⟩, []) := by
            rw [fbconCell, if_neg noLine, if_pos back]
          have byte : textByte fb.cols c b = (⟨c.x - 1, c.y⟩, []) := by
            rw [textByte, if_neg newline, if_pos back]
          simp only [fbconCells, round, text, byte, List.nil_append, LinesFit, if_neg newline, if_pos back]
          exact ih ⟨c.x - 1, c.y⟩ (by simp only; omega)
        · have round : fbconCell fb c b = (⟨c.x + 1, c.y⟩, [(c, b)]) := by
            rw [fbconCell, if_neg noLine, if_neg back]
          have drawn := @text_drawn fb.cols c b (not_or.mpr ⟨newline, back⟩) rest
          simp only [fbconCells, round, drawn, LinesFit, if_neg newline, if_neg back, List.singleton_append]
          by_cases room : c.x < fb.cols
          · have here : c.place fb.cols = c := if_pos room
            rw [here, List.cons_inj_right]
            have later := ih ⟨c.x + 1, c.y⟩ room
            constructor
            · intro same
              exact ⟨room, later.mp same⟩
            · intro fit
              exact later.mpr fit.2
          · -- the driver draws behind the last column
            have next : c.place fb.cols = ⟨0, c.y + 1⟩ := if_neg room
            refine iff_of_false (fun same => ?_) (fun fit => room fit.1)
            rw [next] at same
            have cell : c = ⟨0, c.y + 1⟩ := congrArg Prod.fst (List.cons.inj same).1
            have row : c.y = c.y + 1 := congrArg Cursor.y cell
            omega

/-- In every sequence of calls from the boot on the driver draws the text, and the same cells
for every way to cut it into calls, exactly when no line gets more bytes than it has columns. -/
theorem console_text_iff (some : 0 < fb.cols) (calls : List (List UInt8)) :
    ((fbconCalls fb ⟨0, 0⟩ calls).2 = text fb.cols ⟨0, 0⟩ calls.flatten ∧
      (∀ d ∈ (fbconCalls fb ⟨0, 0⟩ calls).2, d.1.x < fb.cols) ∧
      ∀ calls', calls'.flatten = calls.flatten →
        (fbconCalls fb ⟨0, 0⟩ calls').2 = (fbconCalls fb ⟨0, 0⟩ calls).2) ↔
    LinesFit fb.cols 0 calls.flatten := by
  have whole := @fbconCells_text_iff fb calls.flatten ⟨0, 0⟩ (Nat.zero_le _)
  rw [← whole, fbconCalls_flatten]
  constructor
  · intro all
    exact all.1
  · intro same
    refine ⟨same, ?_, ?_⟩
    · rw [same]
      exact text_columns some calls.flatten ⟨0, 0⟩
    · intro calls' equal
      rw [fbconCalls_flatten, equal]

theorem screen_cells (font : Font) : ∀ (calls : List (List UInt8)) (s : Screen),
    (calls.map (WriteCall.mk true)).foldlM (Screen.write font fb) s =
      .ok ⟨(fbconCalls fb s.cursor calls).1,
        s.accesses ++ (fbconCalls fb s.cursor calls).2.flatMap (Drawn.accesses font fb)⟩ := by
  intro calls
  induction calls with
  | nil =>
      intro s
      rw [fbconCalls, List.flatMap_nil, List.append_nil]
      rfl
  | cons buf rest ih =>
      intro s
      have first : Screen.write font fb s ⟨true, buf⟩ =
          .ok ⟨(fbconCells fb s.cursor buf).1,
            s.accesses ++ (fbconCells fb s.cursor buf).2.flatMap (Drawn.accesses font fb)⟩ := by
        unfold Screen.write fbconWrite
        simp only [if_true, fbconBytes_cells]
      rw [List.map_cons, List.foldlM_cons, first, ok_bind, ih]
      simp only [fbconCalls, List.flatMap_append, List.append_assoc]

end Driver

def narrowFb : Fbdev where
  addr := 0xFD000000
  pitch := 64
  width := 16
  height := 52
  bpp := 32

theorem console_text_iff_lines :
    (fbconCalls narrowFb ⟨0, 0⟩ [[97], [10, 98]]).2 = [(⟨0, 0⟩, 97), (⟨0, 1⟩, 98)] := by
  have fit : LinesFit narrowFb.cols 0 [97, 10, 98] := by
    simp only [LinesFit]
    decide
  have drawn := ((@console_text_iff narrowFb (by decide) [[97], [10, 98]]).mpr fit).1
  rw [drawn]
  decide

/-- The second of three bytes is drawn behind the only column, and the third is lost. -/
theorem console_drops_byte : ¬ ∀ (fb : Fbdev) (calls : List (List UInt8)), 0 < fb.cols →
    (fbconCalls fb ⟨0, 0⟩ calls).2 = text fb.cols ⟨0, 0⟩ calls.flatten ∧
      (∀ d ∈ (fbconCalls fb ⟨0, 0⟩ calls).2, d.1.x < fb.cols) ∧
      ∀ calls', calls'.flatten = calls.flatten →
        (fbconCalls fb ⟨0, 0⟩ calls').2 = (fbconCalls fb ⟨0, 0⟩ calls).2 := by
  intro all
  have drawn := (all narrowFb [[97, 98, 99]] (by decide)).1
  have calls : (fbconCalls narrowFb ⟨0, 0⟩ [[97, 98, 99]]).2 = [(⟨0, 0⟩, 97), (⟨1, 0⟩, 98)] := by decide
  have expected : text narrowFb.cols ⟨0, 0⟩ [97, 98, 99] =
      [(⟨0, 0⟩, 97), (⟨0, 1⟩, 98), (⟨0, 2⟩, 99)] := by decide
  rw [calls] at drawn
  have same := drawn.trans expected
  exact absurd same (by decide)

end Trunix
