import Pebbles.Hardware.Console
import Pebbles.Library.Loops
import Pebbles.Library.Scrolling
import Mathlib.Data.List.TakeWhile

/-! # What the screen shows

Text printed with `putbytes` on a cleared console with a visible cursor. The driver writes into the
memory of the screen and moves all lines up in place, cell by cell; `screen` reads the characters
back with `get_char`, and every function is described by what it does to this screen. The text
itself is laid out on a sheet without an end, and the screen shows its last lines. -/

namespace Pebbles

open Scrolling

namespace Console

/-! ## The characters on the screen -/

/-- `get_char`. -/
def getChar (c : Console) (row col : Int) : UInt8 :=
  if row < 0 ∨ row ≥ height then 0
  else if col < 0 ∨ col ≥ width then 0
  else c.mem (memBase + 2 * (row * width + col))

/-- The screen: the cursor and the characters. -/
def screen (c : Console) : Screen UInt8 height width where
  row := c.row.toNat
  col := c.col.toNat
  cell i j := c.getChar i.val j.val

@[simp] theorem screen_row (c : Console) : c.screen.row = c.row.toNat := rfl

@[simp] theorem screen_col (c : Console) : c.screen.col = c.col.toNat := rfl

@[simp] theorem screen_cell (c : Console) (i : Fin height) (j : Fin width) :
    c.screen.cell i j = c.getChar i.val j.val := rfl

variable {c d : Console} {ch color : UInt8}

/-- `get_char` of a cell. -/
theorem getChar_eq (c : Console) {i j : Nat} (hi : i < height) (hj : j < width) :
    c.getChar i j = c.mem (cellAddr i j) := by
  have hrow : ¬((i : Int) < 0 ∨ (i : Int) ≥ height) := by
    omega
  have hcol : ¬((j : Int) < 0 ∨ (j : Int) ≥ width) := by
    omega
  rw [getChar, if_neg hrow, if_neg hcol, cellAddr]

/-- **Writing a cell** writes its character, and no other one. -/
theorem mem_putCell (c : Console) (ch color : UInt8) {row col i j : Nat} (hcol : col < width)
    (hj : j < width) :
    (c.putCell (cellAddr row col) ch color).mem (cellAddr i j) =
      if i = row ∧ j = col then ch else c.mem (cellAddr i j) := by
  have hcolor : cellAddr i j ≠ cellAddr row col + 1 := by
    unfold cellAddr
    omega
  change Function.update (Function.update c.mem (cellAddr row col) ch) (cellAddr row col + 1) color
    (cellAddr i j) = _
  rw [Function.update_of_ne hcolor]
  split_ifs with hsame
  · rw [hsame.1, hsame.2, Function.update_self]
  · refine Function.update_of_ne (fun heq => hsame ?_) _ _
    unfold cellAddr at heq
    simp only [width] at *
    omega

/-! ## The loops over all cells -/

/-- The cells before number `n` hold `v`, the others what they held in `c`. -/
def CellsDone (c : Console) (v : Nat → Nat → UInt8) (n : Nat) (d : Console) : Prop :=
  ∀ i j, i < height → j < width → d.mem (cellAddr i j) =
    if i * width + j < n then v i j else c.mem (cellAddr i j)

/-- **The loops write every cell** when their body does, with the cells that come later still as
they were. -/
theorem mem_eachCell {f : Console → Nat → Nat → Console} {v : Nat → Nat → UInt8} (c : Console)
    (writes : ∀ d i j, i < height → j < width → CellsDone c v (i * width + j) d →
      ∀ i' j', i' < height → j' < width → (f d i j).mem (cellAddr i' j') =
        if i' = i ∧ j' = j then v i j else d.mem (cellAddr i' j'))
    {i j : Nat} (hi : i < height) (hj : j < width) :
    (c.eachCell f).mem (cellAddr i j) = v i j := by
  have hall : CellsDone c v (height * width) (c.eachCell f) := by
    refine Loop.foldl_range (I := fun i d => CellsDone c v (i * width) d) height ?_ ?_
    · intro i j _ _
      rw [if_neg (by omega)]
    · intro i hi d hd
      have hrow : CellsDone c v (i * width + width)
          ((List.range width).foldl (fun c j => f c i j) d) := by
        refine Loop.foldl_range (I := fun j d => CellsDone c v (i * width + j) d) width hd ?_
        intro j hj e he i' j' hi' hj'
        rw [writes e i j hi hj he i' j' hi' hj', he i' j' hi' hj']
        have hnumber : i' * width + j' = i * width + j ↔ i' = i ∧ j' = j := by
          simp only [width] at *
          omega
        by_cases hsame : i' = i ∧ j' = j
        · have hlt : i * width + j < i * width + (j + 1) := Nat.lt_succ_self _
          rw [if_pos hsame, hsame.1, hsame.2, if_pos hlt]
        · have hlt : i' * width + j' < i * width + (j + 1) ↔ i' * width + j' < i * width + j := by
            rw [← hnumber] at hsame
            omega
          rw [if_neg hsame]
          simp only [hlt]
      rwa [Nat.succ_mul]
  rw [hall i j hi hj, if_pos]
  simp only [width, height] at *
  omega

/-- `update_cursor` writes nothing. -/
theorem mem_updateCursor (c : Console) : c.updateCursor.mem = c.mem := rfl

/-- `clear_console` leaves no character. -/
theorem mem_clearConsole (c : Console) {i j : Nat} (hi : i < height) (hj : j < width) :
    c.clearConsole.mem (cellAddr i j) = 0 := by
  rw [clearConsole, mem_updateCursor]
  refine mem_eachCell (v := fun _ _ => 0) _ ?_ hi hj
  intro d i j hi hj _ i' j' hi' hj'
  exact mem_putCell d 0 _ hj hj'

/-- **`scroll_up`** moves every line up, in place: the line below has not been written yet when it
is read. -/
theorem mem_scrollUp (c : Console) {i j : Nat} (hi : i < height) (hj : j < width) :
    c.scrollUp.mem (cellAddr i j) =
      if i + 1 < height then c.mem (cellAddr (i + 1) j) else 0 := by
  refine mem_eachCell (v := fun i j => if i + 1 < height then c.mem (cellAddr (i + 1) j) else 0)
    { c with row := c.row - 1 } ?_ hi hj
  intro d i j hi hj hdone i' j' hi' hj'
  unfold scrollCell
  by_cases hlast : i = height - 1
  · have hend : ¬i + 1 < height := by
      omega
    rw [if_pos hlast, mem_putCell d 0 _ hj hj', if_neg hend]
  · have hnext : i + 1 < height := by
      omega
    have haddr : cellAddr i j + 2 * width = cellAddr (i + 1) j := by
      simp only [cellAddr, width]
      omega
    have hlater : ¬(i + 1) * width + j < i * width + j := by
      rw [Nat.succ_mul]
      omega
    have hold := hdone (i + 1) j hnext hj
    rw [if_neg hlater] at hold
    dsimp only
    rw [if_neg hlast, mem_putCell d _ _ hj hj', haddr, hold, if_pos hnext]

/-! ## Printing -/

/-- What a byte is for the layout. -/
def byteMark (ch : UInt8) : Mark UInt8 :=
  if ch = 10 then .newline else if ch = 13 then .home else .glyph ch

/-- The cursor is visible, in a cell of the screen. -/
structure Ready (c : Console) : Prop where
  /-- The cursor is visible. -/
  visible : c.isVisible = true
  /-- The row. -/
  row : 0 ≤ c.row ∧ c.row < 25
  /-- The column. -/
  col : 0 ≤ c.col ∧ c.col < 80

/-- A character is written at the cursor of the screen. -/
theorem Ready.screen_putAtCursor (h : c.Ready) (ch : UInt8) :
    (c.putAtCursor ch).screen = c.screen.write ch := by
  obtain ⟨hrow, hrow'⟩ := h.row
  obtain ⟨hcol, hcol'⟩ := h.col
  have hplace : memBase + 2 * ((c.row * width + c.col) % 2 ^ 16) =
      cellAddr c.row.toNat c.col.toNat := by
    unfold cellAddr
    simp only [width]
    omega
  have hput : c.putAtCursor ch =
      c.putCell (cellAddr c.row.toNat c.col.toNat) ch (UInt8.ofInt c.color) := by
    rw [putAtCursor, ← hplace]
  rw [hput]
  refine Screen.ext rfl rfl ?_
  funext i j
  change _ = if i.val = c.row.toNat ∧ j.val = c.col.toNat then ch else c.screen.cell i j
  rw [screen_cell, screen_cell, getChar_eq _ i.isLt j.isLt, getChar_eq _ i.isLt j.isLt]
  apply mem_putCell _ _ _ _ j.isLt
  simp only [width]
  omega

/-- After `scroll_up` the screen has moved up. -/
theorem screen_scrollUp (c : Console) (low : 0 < c.row) :
    c.scrollUp.screen = c.screen.scroll 0 := by
  have hdraws := draws_scrollUp c
  refine Screen.ext ?_ ?_ ?_
  · rw [screen_row, hdraws.row]
    change (c.row - 1).toNat = c.row.toNat - 1
    omega
  · rw [screen_col, hdraws.col]
    rfl
  · funext i j
    rw [screen_cell, getChar_eq _ i.isLt j.isLt, mem_scrollUp c i.isLt j.isLt, Screen.scroll]
    dsimp only
    split_ifs with hi
    · exact (getChar_eq c hi j.isLt).symm
    · rfl

/-- Before the test for a full screen. -/
structure Drawn (c : Console) : Prop where
  /-- The cursor is visible. -/
  visible : c.isVisible = true
  /-- The row, which may be the one below the screen. -/
  row : 0 ≤ c.row ∧ c.row ≤ 25
  /-- The column. -/
  col : 0 ≤ c.col ∧ c.col < 80

theorem Ready.drawn (h : c.Ready) : c.Drawn := ⟨h.visible, ⟨h.row.1, Int.le_of_lt h.row.2⟩, h.col⟩

/-- The beginning of a line. -/
theorem Drawn.lineStart (h : c.Drawn) {row : Int} (hrow : 0 ≤ row ∧ row ≤ 25) :
    Drawn { c with row := row, col := 0 } :=
  ⟨h.visible, hrow, Int.le_refl 0, (by decide : (0 : Int) < 80)⟩

/-- `cursor_next` goes on in the line or to the next one. -/
theorem Ready.cursorNext (h : c.Ready) : c.cursorNext.Drawn := by
  have hrow := h.row
  have hcol := h.col
  unfold Console.cursorNext
  split_ifs with hnext
  · refine ⟨h.visible, h.drawn.row, ?_⟩
    simp only [width] at hnext
    dsimp only
    omega
  · exact h.drawn.lineStart (by omega)

/-- **The `switch` of `printbyte`** draws on the screen. -/
theorem Ready.showByte (h : c.Ready) (plain : ch ≠ 8) :
    (c.showByte ch).Drawn ∧ (c.showByte ch).screen = c.screen.draw (byteMark ch) := by
  have hrow := h.row
  have hcol := h.col
  unfold Console.showByte byteMark
  split_ifs with hnewline hreturn
  · refine ⟨h.drawn.lineStart (by omega), Screen.ext ?_ rfl rfl⟩
    change (c.row + 1).toNat = c.row.toNat + 1
    omega
  · exact ⟨h.drawn.lineStart h.drawn.row, rfl⟩
  · -- a character, and the cursor goes on
    have hkeep := draws_putAtCursor c ch hrow hcol
    have hput : (c.putAtCursor ch).Ready := by
      refine ⟨?_, ?_, ?_⟩
      · rw [hkeep.isVisible]
        exact h.visible
      · rw [hkeep.row]
        exact hrow
      · rw [hkeep.col]
        exact hcol
    refine ⟨hput.cursorNext, ?_⟩
    have hwrite := h.screen_putAtCursor ch
    have hnext : c.screen.col + 1 < width ↔ (c.putAtCursor ch).col < width - 1 := by
      rw [hkeep.col, screen_col]
      simp only [width]
      omega
    unfold Console.cursorNext Screen.draw
    dsimp only
    rw [← hwrite]
    split_ifs with h1 h2 h2
    · refine Screen.ext rfl ?_ rfl
      change ((c.putAtCursor ch).col + 1).toNat = c.col.toNat + 1
      rw [hkeep.col]
      omega
    · exact absurd (hnext.mpr h1) h2
    · exact absurd (hnext.mp h2) h1
    · refine Screen.ext ?_ rfl rfl
      change ((c.putAtCursor ch).row + 1).toNat = c.row.toNat + 1
      rw [hkeep.row]
      omega

/-- **A byte** is printed on the screen. -/
theorem Ready.printbyte (h : c.Ready) (plain : ch ≠ 8) :
    (c.printbyte ch).Ready ∧ (c.printbyte ch).screen = c.screen.put 0 (byteMark ch) := by
  obtain ⟨hdrawn, hscreen⟩ := h.showByte plain
  have hrow := hdrawn.row
  have hfull : (c.showByte ch).isScreenFull = true ↔
      (c.screen.draw (byteMark ch)).row = height := by
    rw [← hscreen, screen_row, isScreenFull, hdrawn.visible, ite_self]
    by_cases hlt : (c.showByte ch).row < height
    · rw [if_pos hlt]
      simp only [height] at hlt ⊢
      exact ⟨fun hfull => absurd hfull Bool.false_ne_true, fun _ => by omega⟩
    · rw [if_neg hlt]
      simp only [height] at hlt ⊢
      exact ⟨fun _ => by omega, fun _ => trivial⟩
  unfold Console.printbyte Screen.put
  dsimp only
  split_ifs with h1 h2 h2
  · have hlast : (c.showByte ch).row = 25 := by
      have hheight := hfull.mp h1
      rw [← hscreen, screen_row] at hheight
      simp only [height] at hheight
      omega
    have hkeep := draws_scrollUp (c.showByte ch)
    refine ⟨⟨?_, ?_, ?_⟩, ?_⟩
    · rw [hkeep.isVisible]
      exact hdrawn.visible
    · rw [hkeep.row]
      dsimp only
      omega
    · rw [hkeep.col]
      exact hdrawn.col
    · rw [screen_scrollUp _ (by omega), hscreen]
  · exact absurd (hfull.mp h1) h2
  · exact absurd (hfull.mpr h2) h1
  · refine ⟨⟨hdrawn.visible, ⟨hrow.1, ?_⟩, hdrawn.col⟩, hscreen⟩
    rw [← hscreen, screen_row] at h2
    simp only [height] at h2
    omega

/-! ## Text in pieces -/

/-- The bytes that a call of `putbytes` is given. -/
def pieceBytes (piece : (Nat → UInt8) × Int) : List UInt8 :=
  (List.range piece.2.toNat).map piece.1

/-- **Plain text**: no `NUL`, at which `putbytes` stops, and no backspace. -/
def PlainText (text : List UInt8) : Prop := ∀ ch ∈ text, ch ≠ 0 ∧ ch ≠ 8

/-- **The screen shows the text**: the cursor stands where the layout of the text ends, and the
characters are those of its last lines, up to the one of the cursor. -/
structure ShowsText (c : Console) (text : List UInt8) : Prop where
  /-- The row of the cursor. -/
  row : c.row = (Sheet.layout width 0 (text.map byteMark)).row -
    (Sheet.layout width 0 (text.map byteMark)).first height
  /-- The column of the cursor. -/
  col : c.col = (Sheet.layout width 0 (text.map byteMark)).col
  /-- The characters. -/
  cell : ∀ i j : Nat, i < height → j < width → c.getChar i j =
    (Sheet.layout width 0 (text.map byteMark)).cell
      ((Sheet.layout width 0 (text.map byteMark)).first height + i) j

/-- A row of bytes is printed on the screen. -/
theorem Ready.printText {text : List UInt8} (h : c.Ready) (plain : PlainText text) :
    (text.foldl Console.printbyte c).Ready ∧
      (text.foldl Console.printbyte c).screen =
        (text.map byteMark).foldl (Screen.put 0) c.screen := by
  induction text generalizing c with
  | nil => exact ⟨h, rfl⟩
  | cons ch text ih =>
      obtain ⟨hready, hscreen⟩ := h.printbyte (plain ch List.mem_cons_self).2
      have htext := ih hready fun x hx => plain x (List.mem_cons_of_mem _ hx)
      rwa [hscreen] at htext

/-- **A call of `putbytes`** prints its piece. -/
theorem Ready.putbytes {piece : (Nat → UInt8) × Int} (h : c.Ready)
    (plain : PlainText (pieceBytes piece)) :
    (c.putbytes piece.1 piece.2).Ready ∧
      (c.putbytes piece.1 piece.2).screen =
        ((pieceBytes piece).map byteMark).foldl (Screen.put 0) c.screen := by
  have hshown : shown piece.1 piece.2 = pieceBytes piece := by
    apply List.takeWhile_eq_self_iff.mpr
    intro ch hch
    simpa using (plain ch hch).1
  unfold Console.putbytes
  split_ifs with hlen
  · have hnil : pieceBytes piece = [] := by
      rw [pieceBytes, Int.toNat_of_nonpos hlen]
      rfl
    rw [hnil]
    exact ⟨h, rfl⟩
  · rw [hshown]
    obtain ⟨hready, hscreen⟩ := h.printText plain
    exact ⟨⟨hready.visible, hready.row, hready.col⟩, hscreen⟩

/-- **The pieces** are printed one after the other. -/
theorem Ready.putPieces {pieces : List ((Nat → UInt8) × Int)} (h : c.Ready)
    (plain : PlainText (pieces.flatMap pieceBytes)) :
    (pieces.foldl (fun c piece => c.putbytes piece.1 piece.2) c).Ready ∧
      (pieces.foldl (fun c piece => c.putbytes piece.1 piece.2) c).screen =
        ((pieces.flatMap pieceBytes).map byteMark).foldl (Screen.put 0) c.screen := by
  induction pieces generalizing c with
  | nil => exact ⟨h, rfl⟩
  | cons piece pieces ih =>
      rw [List.flatMap_cons] at plain
      obtain ⟨hready, hscreen⟩ := h.putbytes fun ch hch => plain ch (List.mem_append_left _ hch)
      have hrest := ih hready fun ch hch => plain ch (List.mem_append_right _ hch)
      rw [hscreen] at hrest
      rw [List.flatMap_cons, List.map_append, List.foldl_append]
      exact hrest

/-- `update_cursor` does not draw. -/
theorem Draws.updateCursor (h : Draws c d) : Draws c d.updateCursor :=
  ⟨h.row, h.col, h.isVisible, h.inside, h.grows⟩

/-- `clear_console` draws on the screen, from the first cell on. -/
theorem draws_clearConsole (c : Console) :
    Draws { c with row := 0, col := 0 } c.clearConsole :=
  (draws_eachCell (fun d _ _ => draws_cell d _ _) _).updateCursor

/-- **A cleared console** with a visible cursor. -/
structure Cleared (c : Console) : Prop where
  /-- The cursor is visible. -/
  visible : c.isVisible = true
  /-- The cursor stands in the first row. -/
  row : c.row = 0
  /-- It stands in the first column. -/
  col : c.col = 0
  /-- There are no characters. -/
  cell : ∀ i j : Nat, i < height → j < width → c.getChar i j = 0

/-- `clear_console` clears, when the cursor is visible. -/
theorem cleared_clearConsole (visible : c.isVisible = true) : c.clearConsole.Cleared := by
  have hdraws := draws_clearConsole c
  refine ⟨?_, hdraws.row, hdraws.col, fun i j hi hj => ?_⟩
  · rw [hdraws.isVisible]
    exact visible
  · rw [getChar_eq _ hi hj, mem_clearConsole c hi hj]

/-- Another colour and `show_cursor` do not change what is on the screen. -/
theorem Cleared.shown {color : Int} (hidden : c.isVisible = false)
    (valid : 0 ≤ color ∧ color ≤ 0xFF) (row : c.row = 0) (col : c.col = 0)
    (cell : ∀ i j : Nat, i < height → j < width → c.getChar i j = 0) :
    (c.sysSetTermColor color).1.showCursor.Cleared := by
  have hcolor : c.sysSetTermColor color = ({ c with color := color }, 0) :=
    if_neg (by omega)
  have hhidden : ({ c with color := color } : Console).isVisible ≠ true := by
    change c.isVisible ≠ true
    rw [hidden]
    decide
  rw [hcolor, showCursor, if_neg hhidden]
  exact ⟨rfl, row, col, cell⟩

/-- The console is cleared when the kernel starts: the cursor is shown afterwards. -/
theorem cleared_boot (mem : Int → UInt8) : (boot mem).Cleared := by
  have hdraws := draws_clearConsole (start mem)
  refine Cleared.shown hdraws.isVisible (by decide) hdraws.row hdraws.col ?_
  intro i j hi hj
  rw [getChar_eq _ hi hj]
  exact mem_clearConsole (start mem) hi hj

/-- A cleared console is ready, with an empty screen. -/
theorem Cleared.ready (h : c.Cleared) : c.Ready ∧ c.screen = ⟨0, 0, fun _ _ => 0⟩ := by
  refine ⟨⟨h.visible, ?_, ?_⟩, Screen.ext ?_ ?_ ?_⟩
  · rw [h.row]
    decide
  · rw [h.col]
    decide
  · rw [screen_row, h.row]
    rfl
  · rw [screen_col, h.col]
    rfl
  · funext i j
    rw [screen_cell, h.cell i.val j.val i.isLt j.isLt]

/-- **The screen shows the last 25 lines of what was printed.** On a cleared console with a visible
cursor, plain text printed in any number of pieces is shown as it is laid out on a sheet without an
end, in its last lines up to the one of the cursor. -/
theorem showsText_of_putbytes (cleared : c.Cleared) (pieces : List ((Nat → UInt8) × Int))
    (plain : PlainText (pieces.flatMap pieceBytes)) :
    (pieces.foldl (fun c piece => c.putbytes piece.1 piece.2) c).ShowsText
      (pieces.flatMap pieceBytes) := by
  obtain ⟨hclear, hempty⟩ := cleared.ready
  obtain ⟨hready, hscreen⟩ := hclear.putPieces plain
  rw [hempty] at hscreen
  have hshows := Screen.shows_layout (h := height) (w := width) (by decide) (by decide) (0 : UInt8)
    ((pieces.flatMap pieceBytes).map byteMark)
  rw [← hscreen] at hshows
  have hrow := hshows.row
  have hcol := hshows.col
  rw [screen_row] at hrow
  rw [screen_col] at hcol
  refine ⟨?_, ?_, fun i j hi hj => ?_⟩
  · have := hready.row
    omega
  · have := hready.col
    omega
  · exact hshows.cell ⟨i, hi⟩ ⟨j, hj⟩

/-- Twenty-five newlines and an `a`, in two pieces. -/
def newlinesAndLetter : List ((Nat → UInt8) × Int) := [(fun _ => 10, 25), (fun _ => 97, 1)]

/-- The screen has scrolled by one line, and the `a` stands in its last one. -/
theorem showsText_of_putbytes_scrolled :
    let c := newlinesAndLetter.foldl (fun c piece => c.putbytes piece.1 piece.2) (boot fun _ => 0)
    c.row = 24 ∧ c.col = 1 ∧ c.getChar 24 0 = 97 ∧ c.getChar 23 0 = 0 := by
  have hshows := showsText_of_putbytes (cleared_boot fun _ => 0) newlinesAndLetter
    (by simp [PlainText, newlinesAndLetter, pieceBytes])
  refine ⟨hshows.row.trans (by decide), hshows.col.trans (by decide), ?_, ?_⟩
  · exact (hshows.cell 24 0 (by decide) (by decide)).trans (by decide)
  · exact (hshows.cell 23 0 (by decide) (by decide)).trans (by decide)

end Console

end Pebbles
