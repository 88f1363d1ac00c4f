import Pebbles.Library.Runs
import Mathlib.Algebra.Order.Ring.Int

/-! # The console driver

`kern/hardware/console.c`: a cursor with a row, a column and a colour, and the bytes of the screen
at `CONSOLE_MEM_BASE`. A hidden cursor may stand one row below the screen, because `is_screen_full`
defers the scrolling; the next character is then written before the test. The addresses that the
driver writes are recorded, so that a property can speak about all of them. -/

namespace Pebbles

open Transition

/-! ## The driver -/

/-- `myCursor`, the memory, and the addresses written so far, the latest first. -/
structure Console where
  /-- The row index. -/
  row : Int
  /-- The column index. -/
  col : Int
  /-- The colour. -/
  color : Int
  /-- The cursor offset that the controller was told. -/
  offset : Nat
  /-- The cursor is visible. -/
  isVisible : Bool
  /-- The memory. -/
  mem : Int → UInt8
  /-- The addresses that were written. -/
  written : List Int

namespace Console

/-- `CONSOLE_MEM_BASE`. -/
def memBase : Int := 0xB8000

/-- `CONSOLE_WIDTH`. -/
def width : Nat := 80

/-- `CONSOLE_HEIGHT`. -/
def height : Nat := 25

/-- The address lies in the `25 * 80 * 2` bytes of the screen. -/
def onScreen (addr : Int) : Prop := memBase ≤ addr ∧ addr < memBase + 25 * 80 * 2

instance (addr : Int) : Decidable (onScreen addr) := inferInstanceAs (Decidable (_ ∧ _))

/-- A byte is written. -/
def store (c : Console) (addr : Int) (v : UInt8) : Console :=
  { c with mem := Function.update c.mem addr v, written := addr :: c.written }

/-- A character and its colour are written. -/
def putCell (c : Console) (addr : Int) (ch color : UInt8) : Console :=
  (c.store addr ch).store (addr + 1) color

/-- `update_offset`. -/
def updateOffset (c : Console) : Console :=
  { c with
    offset := if c.isVisible then ((width * c.row + c.col) % 2 ^ 16).toNat else 0xFFFF }

/-- `update_cursor`: the offset also goes to the ports of the controller. -/
def updateCursor (c : Console) : Console := c.updateOffset

/-- `cursor_back`. -/
def cursorBack (c : Console) : Console :=
  if c.col > 0 then { c with col := c.col - 1 }
  else if c.col = 0 ∧ c.row = 0 then c
  else if c.col = 0 ∧ c.row ≠ 0 then { c with col := width - 1, row := c.row - 1 }
  else c

/-- `cursor_next`. The expression `row = row ++` is read as `row ++`. -/
def cursorNext (c : Console) : Console :=
  if c.col < width - 1 then { c with col := c.col + 1 }
  else { c with col := 0, row := c.row + 1 }

/-- `is_screen_full`. -/
def isScreenFull (c : Console) : Bool :=
  if c.row < height then false
  else if c.col > 0 then true
  else c.isVisible

/-- The address of a cell. -/
def cellAddr (i j : Nat) : Int := memBase + 2 * (i * width + j)

/-- One round of the loops of `scroll_up`: the cell below is copied, or the last row is cleared. -/
def scrollCell (c : Console) (i j : Nat) : Console :=
  let curPixel := cellAddr i j
  let nextPixel := curPixel + 2 * width
  if i = height - 1 then c.putCell curPixel 0 (UInt8.ofInt c.color)
  else c.putCell curPixel (c.mem nextPixel) (c.mem (nextPixel + 1))

/-- The loops over all cells, row by row. -/
def eachCell (c : Console) (body : Console → Nat → Nat → Console) : Console :=
  (List.range height).foldl (fun c i => (List.range width).foldl (fun c j => body c i j) c) c

/-- `scroll_up`. -/
def scrollUp (c : Console) : Console := ({ c with row := c.row - 1 }).eachCell scrollCell

/-- A character is written at the cursor. The offset is a `uint16_t`. -/
def putAtCursor (c : Console) (ch : UInt8) : Console :=
  let offset := (c.row * width + c.col) % 2 ^ 16
  c.putCell (memBase + 2 * offset) ch (UInt8.ofInt c.color)

/-- The `switch` of `printbyte`: newline, carriage return, backspace, and all other characters. -/
def showByte (c : Console) (ch : UInt8) : Console :=
  if ch = 10 then { c with row := c.row + 1, col := 0 }
  else if ch = 13 then { c with col := 0 }
  else if ch = 8 then c.cursorBack.putAtCursor 0
  else (c.putAtCursor ch).cursorNext

/-- `printbyte`. -/
def printbyte (c : Console) (ch : UInt8) : Console :=
  let c1 := c.showByte ch
  if c1.isScreenFull then c1.scrollUp else c1

/-- `putbyte`. -/
def putbyte (c : Console) (ch : UInt8) : Console := (c.printbyte ch).updateCursor

/-- What `putbytes` prints of the string at `s`: at most `len` bytes, and none from the first `NUL`
on. -/
def shown (s : Nat → UInt8) (len : Int) : List UInt8 :=
  ((List.range len.toNat).map s).takeWhile fun ch => ch ≠ 0

/-- `putbytes`. -/
def putbytes (c : Console) (s : Nat → UInt8) (len : Int) : Console :=
  if len ≤ 0 then c else ((shown s len).foldl printbyte c).updateCursor

/-- `sys_set_term_color`. -/
def sysSetTermColor (c : Console) (color : Int) : Console × Int :=
  if color < 0 ∨ color > 0xFF then (c, -1) else ({ c with color := color }, 0)

/-- `set_cursor`. -/
def setCursor (c : Console) (row col : Int) : Console × Int :=
  if row < 0 ∨ row ≥ height then (c, -1)
  else if col < 0 ∨ col ≥ width then (c, -1)
  else (({ c with row := row, col := col }).updateCursor, 0)

/-- `hide_cursor`. -/
def hideCursor (c : Console) : Console :=
  if c.isVisible = false then c else ({ c with isVisible := false }).updateCursor

/-- `show_cursor`. -/
def showCursor (c : Console) : Console :=
  if c.isVisible then c else ({ c with isVisible := true }).updateCursor

/-- `clear_console`. -/
def clearConsole (c : Console) : Console :=
  (({ c with row := 0, col := 0 }).eachCell fun c i j =>
    c.putCell (cellAddr i j) 0 (UInt8.ofInt c.color)).updateCursor

/-- `draw_char`. -/
def drawChar (c : Console) (row col ch color : Int) : Console :=
  if row < 0 ∨ row ≥ height then c
  else if col < 0 ∨ col ≥ width then c
  else if color < 0 ∨ color > 0xFF then c
  else c.putCell (memBase + 2 * (row * width + col)) (UInt8.ofInt ch) (UInt8.ofInt color)

/-- The state of the driver before the kernel starts. -/
def start (mem : Int → UInt8) : Console := ⟨0, 0, 0x7, 0xFF, false, mem, []⟩

/-- `FGND_GREEN | BGND_BLACK`. -/
def bootColor : Int := 0x2

/-- `kernel_main` clears the screen, sets the colour and shows the cursor. -/
def boot (mem : Int → UInt8) : Console :=
  ((start mem).clearConsole.sysSetTermColor bootColor).1.showCursor

end Console

/-- The calls of the driver that write. -/
inductive ConsoleCall where
  /-- `putbyte`. -/
  | putbyte (ch : UInt8)
  /-- `putbytes` of the string at `s`. -/
  | putbytes (s : Nat → UInt8) (len : Int)
  /-- `sys_set_term_color`. -/
  | setTermColor (color : Int)
  /-- `set_cursor`. -/
  | setCursor (row col : Int)
  /-- `hide_cursor`. -/
  | hideCursor
  /-- `show_cursor`. -/
  | showCursor
  /-- `clear_console`. -/
  | clearConsole
  /-- `draw_char`. -/
  | drawChar (row col ch color : Int)

namespace Console

/-- A call. -/
def call (c : Console) : ConsoleCall → Console
  | .putbyte ch => c.putbyte ch
  | .putbytes s len => c.putbytes s len
  | .setTermColor color => (c.sysSetTermColor color).1
  | .setCursor row col => (c.setCursor row col).1
  | .hideCursor => c.hideCursor
  | .showCursor => c.showCursor
  | .clearConsole => c.clearConsole
  | .drawChar row col ch color => c.drawChar row col ch color

/-- The calls as steps. -/
def Step (c : Console) (x : ConsoleCall) (c' : Console) : Prop := c.call x = c'

/-! ## The property and the condition -/

/-- **On the screen**: everything was written there, and the cursor is there, or one row below with
nothing printed yet and not visible. -/
structure Contained (c : Console) : Prop where
  /-- Every address written. -/
  written : ∀ addr ∈ c.written, onScreen addr
  /-- The column. -/
  col : 0 ≤ c.col ∧ c.col < 80
  /-- The row. -/
  row : 0 ≤ c.row ∧ c.row ≤ 25
  /-- Below the screen the cursor is hidden, in the first column. -/
  below : c.row = 25 → c.isVisible = false ∧ c.col = 0

/-- The byte may be printed in any row: it is a backspace or a carriage return. -/
def movesOnly (ch : UInt8) : Prop := ch = 8 ∨ ch = 13

/-- **Careful printing**: below the screen only backspaces and carriage returns are printed. -/
def CarefulText (c : Console) (text : List UInt8) : Prop :=
  ∀ before ch after, text = before ++ ch :: after → (before.foldl printbyte c).row = 25 →
    movesOnly ch

/-- **A careful call**: it prints nothing but backspaces and carriage returns below the screen, and
does not show the cursor there. -/
def Careful (c : Console) : ConsoleCall → Prop
  | .putbyte ch => c.row = 25 → movesOnly ch
  | .putbytes s len => c.CarefulText (shown s len)
  | .showCursor => c.row ≠ 25
  | _ => True

/-! ## What the functions write -/

/-- **Drawing**: the cursor stays, and only addresses on the screen are written. -/
structure Draws (c d : Console) : Prop where
  /-- The row stays. -/
  row : d.row = c.row
  /-- The column stays. -/
  col : d.col = c.col
  /-- The cursor stays visible or hidden. -/
  isVisible : d.isVisible = c.isVisible
  /-- What is written is on the screen. -/
  inside : ∀ addr ∈ d.written, addr ∈ c.written ∨ onScreen addr
  /-- The record grows. -/
  grows : ∀ addr ∈ c.written, addr ∈ d.written

variable {c d e : Console} {ch : UInt8}

theorem Draws.refl (c : Console) : Draws c c := ⟨rfl, rfl, rfl, fun _ => Or.inl, fun _ => id⟩

theorem Draws.trans (h : Draws c d) (h' : Draws d e) : Draws c e where
  row := h'.row.trans h.row
  col := h'.col.trans h.col
  isVisible := h'.isVisible.trans h.isVisible
  inside addr ha := (h'.inside addr ha).elim (h.inside addr) Or.inr
  grows addr ha := h'.grows addr (h.grows addr ha)

@[simp] theorem putCell_written (c : Console) (addr : Int) (ch color : UInt8) :
    (c.putCell addr ch color).written = (addr + 1) :: addr :: c.written := rfl

/-- A cell of the screen is drawn. -/
theorem draws_putCell (c : Console) (ch color : UInt8) {row col : Int} (hrow : 0 ≤ row ∧ row < 25)
    (hcol : 0 ≤ col ∧ col < 80) :
    Draws c (c.putCell (memBase + 2 * (row * width + col)) ch color) where
  row := rfl
  col := rfl
  isVisible := rfl
  inside addr ha := by
    have hcell : 0 ≤ row * width + col ∧ row * width + col < 2000 := by
      simp only [width]
      omega
    rcases List.mem_cons.mp ha with rfl | hrest
    · right
      simp only [onScreen, memBase]
      omega
    · rcases List.mem_cons.mp hrest with rfl | hold
      · right
        simp only [onScreen, memBase]
        omega
      · exact Or.inl hold
  grows addr ha := by
    rw [putCell_written]
    exact List.mem_cons_of_mem _ (List.mem_cons_of_mem _ ha)

/-- **The loops over all cells** draw when their body draws on each cell. -/
theorem draws_eachCell {f : Console → Nat → Nat → Console}
    (h : ∀ d i j, i < height → j < width → Draws d (f d i j)) (c : Console) :
    Draws c (c.eachCell f) := by
  -- the invariant of both loops: everything since `c` was drawn
  unfold eachCell
  refine List.foldlRecOn _ _ (Draws.refl c) fun d hd i hi => ?_
  refine List.foldlRecOn _ _ hd fun e he j hj => ?_
  exact he.trans (h e i j (List.mem_range.mp hi) (List.mem_range.mp hj))

/-- The address of a cell of the screen. -/
theorem draws_cell (c : Console) (ch color : UInt8) {i j : Nat} (hi : i < height) (hj : j < width) :
    Draws c (c.putCell (cellAddr i j) ch color) := by
  simp only [height, width] at hi hj
  exact draws_putCell c ch color (by omega) (by omega)

/-- `scroll_up` draws, one row further up. -/
theorem draws_scrollUp (c : Console) : Draws { c with row := c.row - 1 } c.scrollUp := by
  apply draws_eachCell
  intro d i j hi hj
  unfold scrollCell
  split_ifs <;> exact draws_cell d _ _ hi hj

/-- A cursor on the screen draws at its place. -/
theorem draws_putAtCursor (c : Console) (ch : UInt8) (hrow : 0 ≤ c.row ∧ c.row < 25)
    (hcol : 0 ≤ c.col ∧ c.col < 80) : Draws c (c.putAtCursor ch) := by
  have hoffset : (c.row * width + c.col) % 2 ^ 16 = c.row * width + c.col := by
    apply Int.emod_eq_of_lt <;> simp only [width] <;> omega
  unfold putAtCursor
  simp only [hoffset]
  exact draws_putCell c ch _ hrow hcol

/-! ## Careful calls -/

/-- What is drawn on a contained console leaves it contained. -/
theorem Contained.draws (h : c.Contained) (hd : Draws c d) : d.Contained where
  written addr ha := (hd.inside addr ha).elim (h.written addr) id
  col := by
    rw [hd.col]
    exact h.col
  row := by
    rw [hd.row]
    exact h.row
  below := by
    rw [hd.row, hd.isVisible, hd.col]
    exact h.below

/-- The offset and the port do not matter. -/
theorem Contained.updateCursor (h : c.Contained) : c.updateCursor.Contained :=
  ⟨h.written, h.col, h.row, h.below⟩

/-- Before the test for a full screen: the cursor is on the screen, or in the first column of the
row below it. -/
structure Shown (c : Console) : Prop where
  /-- Every address written. -/
  written : ∀ addr ∈ c.written, onScreen addr
  /-- The column. -/
  col : 0 ≤ c.col ∧ c.col < 80
  /-- The row. -/
  row : 0 ≤ c.row ∧ c.row ≤ 25
  /-- The row below the screen. -/
  below : c.row = 25 → c.col = 0

/-- **The test for a full screen** scrolls when the cursor is visible. -/
theorem Shown.contained (h : c.Shown) :
    (if c.isScreenFull then c.scrollUp else c).Contained := by
  have hcol := h.col
  have hrow := h.row
  by_cases hfull : c.isScreenFull = true
  · rw [if_pos hfull]
    have hlast : c.row = 25 := by
      by_contra hne
      have hlt : c.row < height := by
        simp only [height]
        omega
      simp [isScreenFull, hlt] at hfull
    have hup : Contained { c with row := c.row - 1 } := by
      refine ⟨h.written, hcol, ?_, fun habove => ?_⟩
      · show 0 ≤ c.row - 1 ∧ c.row - 1 ≤ 25
        omega
      · have hrow' : c.row - 1 = 25 := habove
        omega
    exact hup.draws (draws_scrollUp c)
  · rw [if_neg hfull]
    refine ⟨h.written, hcol, hrow, fun hlast => ⟨?_, h.below hlast⟩⟩
    have hzero := h.below hlast
    simpa [isScreenFull, hlast, hzero, height] using hfull

/-- **A careful byte** is shown on the screen. -/
theorem Contained.showByte (h : c.Contained) (careful : c.row = 25 → movesOnly ch) :
    (c.showByte ch).Shown := by
  have hcol := h.col
  have hrow := h.row
  unfold Console.showByte
  split_ifs with hnl hcr hbs
  · -- a newline in the row below the screen would go further down
    have hne : c.row ≠ 25 := by
      intro hlast
      rcases careful hlast with rfl | rfl <;> cases hnl
    refine ⟨h.written, ⟨Int.le_refl 0, (by decide : (0 : Int) < 80)⟩, ?_, fun _ => rfl⟩
    show 0 ≤ c.row + 1 ∧ c.row + 1 ≤ 25
    omega
  · exact ⟨h.written, ⟨Int.le_refl 0, (by decide : (0 : Int) < 80)⟩, hrow, fun _ => rfl⟩
  · -- a backspace comes back to the screen
    have hback : 0 ≤ c.cursorBack.row ∧ c.cursorBack.row < 25 ∧ 0 ≤ c.cursorBack.col ∧
        c.cursorBack.col < 80 ∧ c.cursorBack.written = c.written := by
      have hbelow := h.below
      unfold cursorBack
      split_ifs with h1 h2 h3
      · refine ⟨hrow.1, ?_, ?_, ?_, rfl⟩
        · show c.row < 25
          by_contra hge
          have hzero := (hbelow (by omega)).2
          omega
        · show 0 ≤ c.col - 1
          omega
        · show c.col - 1 < 80
          omega
      · exact ⟨hrow.1, by omega, hcol.1, hcol.2, rfl⟩
      · refine ⟨?_, ?_, ?_, ?_, rfl⟩
        · show 0 ≤ c.row - 1
          omega
        · show c.row - 1 < 25
          omega
        · simp [width]
        · simp [width]
      · omega
    obtain ⟨hr0, hr1, hc0, hc1, hw⟩ := hback
    have hdraws := draws_putAtCursor c.cursorBack 0 ⟨hr0, hr1⟩ ⟨hc0, hc1⟩
    refine ⟨fun addr ha => ?_, ?_, ?_, ?_⟩
    · rcases hdraws.inside addr ha with hold | hnew
      · exact h.written addr (hw ▸ hold)
      · exact hnew
    · rw [hdraws.col]
      exact ⟨hc0, hc1⟩
    · rw [hdraws.row]
      omega
    · rw [hdraws.row]
      omega
  · -- any other character is written where the cursor is
    have hlt : c.row < 25 := by
      by_contra hge
      rcases careful (by omega) with rfl | rfl
      · exact hbs rfl
      · exact hcr rfl
    have hdraws := draws_putAtCursor c ch ⟨hrow.1, hlt⟩ hcol
    have hshown := h.draws hdraws
    unfold cursorNext
    split_ifs with hnext
    · refine ⟨hshown.written, ?_, hshown.row, fun hlast => ?_⟩
      · show 0 ≤ (c.putAtCursor ch).col + 1 ∧ (c.putAtCursor ch).col + 1 < 80
        rw [hdraws.col] at hnext ⊢
        simp only [width] at hnext
        omega
      · have hlast' : (c.putAtCursor ch).row = 25 := hlast
        rw [hdraws.row] at hlast'
        omega
    · refine ⟨hshown.written, ⟨Int.le_refl 0, (by decide : (0 : Int) < 80)⟩, ?_, fun _ => rfl⟩
      show 0 ≤ (c.putAtCursor ch).row + 1 ∧ (c.putAtCursor ch).row + 1 ≤ 25
      rw [hdraws.row]
      omega

/-- **A careful byte** leaves the console contained. -/
theorem Contained.printbyte (h : c.Contained) (careful : c.row = 25 → movesOnly ch) :
    (c.printbyte ch).Contained :=
  (h.showByte careful).contained

/-- **Careful text** leaves the console contained. -/
theorem Contained.printText {text : List UInt8} (h : c.Contained) (careful : c.CarefulText text) :
    (text.foldl Console.printbyte c).Contained := by
  induction text generalizing c with
  | nil => exact h
  | cons ch rest ih =>
      apply ih (h.printbyte fun hlast => careful [] ch rest rfl hlast)
      intro before x after hsplit hlast
      exact careful (ch :: before) x after (by rw [hsplit, List.cons_append]) hlast

/-- **A careful call** leaves the console contained. -/
theorem Contained.call {x : ConsoleCall} (h : c.Contained) (careful : c.Careful x) :
    (c.call x).Contained := by
  cases x with
  | putbyte ch => exact (h.printbyte careful).updateCursor
  | putbytes s len =>
      show (c.putbytes s len).Contained
      unfold Console.putbytes
      split_ifs
      · exact h
      · exact (h.printText careful).updateCursor
  | setTermColor color =>
      show (c.sysSetTermColor color).1.Contained
      unfold sysSetTermColor
      split_ifs
      · exact h
      · exact ⟨h.written, h.col, h.row, h.below⟩
  | setCursor row col =>
      show (c.setCursor row col).1.Contained
      unfold Console.setCursor
      split_ifs with hrow hcol
      · exact h
      · exact h
      · simp only [height, width, not_or, not_lt, ge_iff_le, not_le] at hrow hcol
        apply Contained.updateCursor
        refine ⟨h.written, ?_, ?_, fun hlast => ?_⟩
        · show 0 ≤ col ∧ col < 80
          omega
        · show 0 ≤ row ∧ row ≤ 25
          omega
        · have hrow' : row = 25 := hlast
          omega
  | hideCursor =>
      show c.hideCursor.Contained
      unfold Console.hideCursor
      split_ifs
      · exact h
      · exact Contained.updateCursor ⟨h.written, h.col, h.row, fun hlast => ⟨rfl, (h.below hlast).2⟩⟩
  | showCursor =>
      show c.showCursor.Contained
      unfold Console.showCursor
      split_ifs
      · exact h
      · exact Contained.updateCursor ⟨h.written, h.col, h.row, fun hlast => absurd hlast careful⟩
  | clearConsole =>
      have htop : Contained { c with row := 0, col := 0 } :=
        ⟨h.written, (by decide : (0 : Int) ≤ 0 ∧ (0 : Int) < 80),
          (by decide : (0 : Int) ≤ 0 ∧ (0 : Int) ≤ 25), fun hlast => by cases hlast⟩
      have hdraws := draws_eachCell (f := fun c i j =>
        c.putCell (cellAddr i j) 0 (UInt8.ofInt c.color)) (fun d i j => draws_cell d _ _)
        { c with row := 0, col := 0 }
      exact (htop.draws hdraws).updateCursor
  | drawChar row col ch color =>
      show (c.drawChar row col ch color).Contained
      unfold Console.drawChar
      split_ifs with hrow hcol hcolor
      · exact h
      · exact h
      · exact h
      · simp only [height, width, not_or, not_lt, ge_iff_le, not_le] at hrow hcol
        exact h.draws (draws_putCell c _ _ (by omega) (by omega))

theorem sysSetTermColor_row (c : Console) (color : Int) :
    (c.sysSetTermColor color).1.row = c.row := by
  unfold sysSetTermColor
  split_ifs <;> rfl

theorem showCursor_row (c : Console) : c.showCursor.row = c.row := by
  unfold showCursor
  split_ifs <;> rfl

theorem hideCursor_row (c : Console) : c.hideCursor.row = c.row := by
  unfold hideCursor
  split_ifs <;> rfl

theorem hideCursor_isVisible (c : Console) : c.hideCursor.isVisible = false := by
  unfold hideCursor
  split_ifs with h
  · exact h
  · rfl

theorem updateCursor_row (c : Console) : c.updateCursor.row = c.row := rfl

theorem clearConsole_row (c : Console) : c.clearConsole.row = 0 := by
  rw [clearConsole, updateCursor_row]
  exact (draws_eachCell (fun d _ _ => draws_cell d _ _) { c with row := 0, col := 0 }).row

/-- The console is contained when the kernel starts. -/
theorem contained_boot (mem : Int → UInt8) : (boot mem).Contained := by
  have hstart : (start mem).Contained :=
    ⟨nofun, (by decide : (0 : Int) ≤ 0 ∧ (0 : Int) < 80),
      (by decide : (0 : Int) ≤ 0 ∧ (0 : Int) ≤ 25), fun hlast => by cases hlast⟩
  have hclear : (start mem).clearConsole.Contained := hstart.call (x := .clearConsole) trivial
  have hcolor : ((start mem).clearConsole.sysSetTermColor bootColor).1.Contained :=
    hclear.call (x := .setTermColor bootColor) trivial
  apply hcolor.call (x := .showCursor)
  show ((start mem).clearConsole.sysSetTermColor bootColor).1.row ≠ 25
  rw [sysSetTermColor_row, clearConsole_row]
  decide

/-! ## Careless calls -/

/-- **Lost**: something was written outside the screen, or the hidden cursor is further down than
the row below it. -/
def Lost (c : Console) : Prop :=
  (∃ addr ∈ c.written, ¬ onScreen addr) ∨
    c.isVisible = false ∧ 26 ≤ c.row ∧ 0 ≤ c.col ∧ c.col < 80

theorem Lost.not_contained (h : c.Lost) : ¬ c.Contained := by
  intro hc
  rcases h with ⟨addr, ha, hout⟩ | ⟨-, hrow, -⟩
  · exact hout (hc.written addr ha)
  · have hle := hc.row.2
    omega

/-- The same before the test for a full screen, which may bring the cursor one row up. -/
def Slipped (c : Console) : Prop :=
  (∃ addr ∈ c.written, ¬ onScreen addr) ∨
    c.isVisible = false ∧ (27 ≤ c.row ∨ 26 ≤ c.row ∧ c.col = 0) ∧ 0 ≤ c.col ∧ c.col < 80

/-- One row further up is not enough. -/
theorem Slipped.lost (h : c.Slipped) : Lost (if c.isScreenFull then c.scrollUp else c) := by
  have hdraws := draws_scrollUp c
  rcases h with ⟨addr, ha, hout⟩ | ⟨hhidden, hrow, hcol⟩
  · left
    split_ifs
    · exact ⟨addr, hdraws.grows addr ha, hout⟩
    · exact ⟨addr, ha, hout⟩
  · right
    split_ifs with hfull
    · have hlow : 27 ≤ c.row := by
        refine hrow.resolve_right fun hzero => ?_
        have hge : ¬ c.row < height := by
          simp only [height]
          omega
        have hnot : ¬ c.col > 0 := by omega
        simp [isScreenFull, hge, hnot, hhidden] at hfull
      rw [hdraws.isVisible, hdraws.row, hdraws.col]
      refine ⟨hhidden, ?_, hcol⟩
      show 26 ≤ c.row - 1
      omega
    · exact ⟨hhidden, by omega, hcol⟩

/-- A character at a cursor just below the screen is written outside. -/
theorem putAtCursor_outside (c : Console) (ch : UInt8) (hrow : 25 ≤ c.row ∧ c.row ≤ 26)
    (hcol : 0 ≤ c.col ∧ c.col < 80) : ∃ addr ∈ (c.putAtCursor ch).written, ¬ onScreen addr := by
  have hoffset : (c.row * width + c.col) % 2 ^ 16 = c.row * width + c.col := by
    apply Int.emod_eq_of_lt <;> simp only [width] <;> omega
  refine ⟨memBase + 2 * (c.row * width + c.col), ?_, ?_⟩
  · unfold putAtCursor
    simp only [hoffset, putCell_written]
    exact List.mem_cons_of_mem _ List.mem_cons_self
  · simp only [onScreen, memBase, width]
    omega

theorem cursorNext_written (c : Console) : c.cursorNext.written = c.written := by
  unfold cursorNext
  split_ifs <;> rfl

/-- Showing a byte adds to what was written. -/
theorem showByte_grows (c : Console) (ch : UInt8) : ∀ addr ∈ c.written,
    addr ∈ (c.showByte ch).written := by
  have hput : ∀ (d : Console) (x : UInt8), ∀ addr ∈ d.written, addr ∈ (d.putAtCursor x).written :=
    fun d x addr ha => List.mem_cons_of_mem _ (List.mem_cons_of_mem _ ha)
  have hback : c.cursorBack.written = c.written := by
    unfold cursorBack
    split_ifs <;> rfl
  intro addr ha
  unfold showByte
  split_ifs
  · exact ha
  · exact ha
  · exact hput _ _ addr (by rw [hback]; exact ha)
  · rw [cursorNext_written]
    exact hput _ _ addr ha

/-- **Nothing is made good**: a lost console stays lost. -/
theorem Lost.showByte (h : c.Lost) : (c.showByte ch).Slipped := by
  rcases h with ⟨addr, ha, hout⟩ | ⟨hhidden, hrow, hcol⟩
  · exact Or.inl ⟨addr, c.showByte_grows ch addr ha, hout⟩
  · have hput : ∀ (d : Console) (x : UInt8), (d.putAtCursor x).row = d.row ∧
        (d.putAtCursor x).col = d.col ∧ (d.putAtCursor x).isVisible = d.isVisible :=
      fun _ _ => ⟨rfl, rfl, rfl⟩
    unfold Console.showByte
    split_ifs
    · right
      refine ⟨hhidden, Or.inl ?_, Int.le_refl 0, (by decide : (0 : Int) < 80)⟩
      show 27 ≤ c.row + 1
      omega
    · exact Or.inr ⟨hhidden, Or.inr ⟨hrow, rfl⟩, Int.le_refl 0, (by decide : (0 : Int) < 80)⟩
    · have hback : 25 ≤ c.cursorBack.row ∧ 0 ≤ c.cursorBack.col ∧ c.cursorBack.col < 80 ∧
          c.cursorBack.isVisible = false := by
        unfold cursorBack
        split_ifs
        · refine ⟨?_, ?_, ?_, hhidden⟩
          · show 25 ≤ c.row
            omega
          · show 0 ≤ c.col - 1
            omega
          · show c.col - 1 < 80
            omega
        · omega
        · refine ⟨?_, by simp [width], by simp [width], hhidden⟩
          show 25 ≤ c.row - 1
          omega
        · omega
      obtain ⟨hr, hc0, hc1, hv⟩ := hback
      by_cases hlow : c.cursorBack.row ≤ 26
      · exact Or.inl (putAtCursor_outside _ 0 ⟨hr, hlow⟩ ⟨hc0, hc1⟩)
      · obtain ⟨hrow', hcol', hvis'⟩ := hput c.cursorBack 0
        right
        rw [hrow', hcol', hvis']
        exact ⟨hv, by omega, hc0, hc1⟩
    · have hnext : ∀ d : Console, d.row ≤ d.cursorNext.row ∧ d.cursorNext.isVisible = d.isVisible ∧
            (0 ≤ d.col ∧ d.col < 80 → 0 ≤ d.cursorNext.col ∧ d.cursorNext.col < 80) := by
        intro d
        unfold cursorNext
        split_ifs with hlt
        · simp only [width] at hlt
          refine ⟨Int.le_refl _, rfl, fun hd => ?_⟩
          show 0 ≤ d.col + 1 ∧ d.col + 1 < 80
          omega
        · refine ⟨?_, rfl, fun _ => (by decide : (0 : Int) ≤ 0 ∧ (0 : Int) < 80)⟩
          show d.row ≤ d.row + 1
          omega
      obtain ⟨hr, hv, hc⟩ := hnext (c.putAtCursor ch)
      obtain ⟨hrow', hcol', hvis'⟩ := hput c ch
      by_cases hlow : c.row ≤ 26
      · left
        rw [cursorNext_written]
        exact putAtCursor_outside c ch ⟨by omega, hlow⟩ hcol
      · right
        rw [hv, hvis']
        refine ⟨hhidden, Or.inl ?_, hc ?_⟩
        · omega
        · rw [hcol']
          exact hcol

/-- **A careless byte**, below the screen, is lost. -/
theorem Contained.slips (h : c.Contained) (hlast : c.row = 25) (careless : ¬ movesOnly ch) :
    (c.showByte ch).Slipped := by
  obtain ⟨hhidden, hzero⟩ := h.below hlast
  unfold Console.showByte
  split_ifs with hnl hcr hbs
  · right
    refine ⟨hhidden, Or.inr ⟨?_, rfl⟩, Int.le_refl 0, (by decide : (0 : Int) < 80)⟩
    show 26 ≤ c.row + 1
    omega
  · exact absurd (Or.inr hcr) careless
  · exact absurd (Or.inl hbs) careless
  · left
    rw [cursorNext_written]
    exact putAtCursor_outside c ch (by omega) h.col

/-- Text on a lost console. -/
theorem Lost.printText {text : List UInt8} (h : c.Lost) :
    (text.foldl Console.printbyte c).Lost := by
  induction text generalizing c with
  | nil => exact h
  | cons ch rest ih => exact ih h.showByte.lost

/-- **Careless text is lost.** -/
theorem Contained.careful_of_not_lost {text : List UInt8} (h : c.Contained)
    (kept : ¬ (text.foldl Console.printbyte c).Lost) : c.CarefulText text := by
  induction text generalizing c with
  | nil =>
      intro before ch after hsplit
      simp at hsplit
  | cons x rest ih =>
      have hfirst : c.row = 25 → movesOnly x := by
        intro hlast
        by_contra hcareless
        have hlost : (c.printbyte x).Lost := (h.slips hlast hcareless).lost
        exact kept hlost.printText
      intro before ch after hsplit hlast
      cases before with
      | nil =>
          obtain ⟨rfl, -⟩ := List.cons.inj hsplit
          exact hfirst hlast
      | cons y before =>
          obtain ⟨rfl, hrest⟩ := List.cons.inj hsplit
          exact ih (h.printbyte hfirst) kept before ch after hrest hlast

/-- **A call that leaves the console contained was careful.** -/
theorem Contained.careful {x : ConsoleCall} (h : c.Contained) (after : (c.call x).Contained) :
    c.Careful x := by
  cases x with
  | putbyte ch =>
      intro hlast
      by_contra hcareless
      have hlost : (c.printbyte ch).Lost := (h.slips hlast hcareless).lost
      have hsame : (c.putbyte ch).Lost := hlost
      exact hsame.not_contained after
  | putbytes s len =>
      show c.CarefulText (shown s len)
      by_cases hlen : len ≤ 0
      · -- nothing is printed
        have hnone : shown s len = [] := by simp [shown, Int.toNat_of_nonpos hlen]
        rw [hnone]
        intro before ch after hsplit
        simp at hsplit
      · apply h.careful_of_not_lost
        intro hlost
        have hsame : (c.putbytes s len).Lost := by
          unfold Console.putbytes
          rw [if_neg hlen]
          exact hlost
        exact hsame.not_contained after
  | showCursor =>
      intro hlast
      obtain ⟨hhidden, -⟩ := h.below hlast
      have hshown : c.call .showCursor = ({ c with isVisible := true }).updateCursor := by
        show c.showCursor = _
        simp [Console.showCursor, hhidden]
      rw [hshown] at after
      cases (after.below hlast).1
  | setTermColor | setCursor | hideCursor | clearConsole | drawChar => trivial

/-! ## All runs -/

/-- **The console writes on the screen only.** From the start of the kernel, the sequences of calls
after each of which everything was written on the screen and the cursor is where it belongs are the
sequences of careful calls. -/
theorem contained_iff_careful (mem : Int → UInt8) (calls : List ConsoleCall) (c : Console) :
    Run (Into Step Contained) (boot mem) calls c ↔ Run (Guarded Step Careful) (boot mem) calls c := by
  apply Run.into_iff_guarded_of_keep (I := Contained) (contained_boot mem)
  · exact fun _ h => h
  · rintro u x v h rfl careful
    exact h.call careful
  · rintro u x v h rfl after
    exact h.careful after

/-- Newlines with a hidden cursor, as long as it stays on the screen or in the row below. -/
theorem newlines (n : Nat) (hn : n ≤ 25) (h : c.isVisible = false) (hrow : c.row = 0) :
    ∃ d, Run Step c (List.replicate n (.putbyte 10)) d ∧ d.isVisible = false ∧ d.row = n ∧
      (n ≠ 0 → d.col = 0) := by
  induction n with
  | zero => exact ⟨c, .nil, h, hrow, fun hne => absurd rfl hne⟩
  | succ n ih =>
      obtain ⟨d, hrun, hhidden, hd, -⟩ := ih (by omega)
      have hfull : ({ d with row := d.row + 1, col := 0 } : Console).isScreenFull = false := by
        simp [isScreenFull, hhidden]
      have hbyte : d.printbyte 10 = { d with row := d.row + 1, col := 0 } := by
        have hshow : d.showByte 10 = { d with row := d.row + 1, col := 0 } := rfl
        simp only [printbyte, hshow, hfull, Bool.false_eq_true, if_false]
      refine ⟨d.putbyte 10, ?_, ?_, ?_, fun _ => ?_⟩
      · rw [List.replicate_succ']
        exact hrun.snoc rfl
      · rw [putbyte, hbyte]
        exact hhidden
      · rw [putbyte, hbyte]
        show d.row + 1 = _
        rw [hd]
        push_cast
        rfl
      · rw [putbyte, hbyte]
        rfl

/-- **A character printed below the screen** by a hidden cursor is written to the first byte after
the screen. -/
theorem character_below_screen :
    ∃ c, Run Step (boot fun _ => 0)
        (.hideCursor :: (List.replicate 25 (.putbyte 10) ++ [.putbyte 97])) c ∧
      memBase + 25 * 80 * 2 ∈ c.written ∧ ¬ onScreen (memBase + 25 * 80 * 2) := by
  have hrow : (boot fun _ => 0).hideCursor.row = 0 := by
    rw [hideCursor_row, boot, showCursor_row, sysSetTermColor_row, clearConsole_row]
  obtain ⟨d, hrun, -, hd, hcol⟩ := newlines 25 (Nat.le_refl 25) (hideCursor_isVisible _) hrow
  have hfirst : Run Step (boot fun _ => 0) [.hideCursor] (boot fun _ => 0).hideCursor := .snoc .nil rfl
  refine ⟨d.putbyte 97, ?_, ?_, by decide⟩
  · exact (hfirst.append hrun).snoc rfl
  · have hput : memBase + 25 * 80 * 2 ∈ (d.showByte 97).written := by
      have hshow : d.showByte 97 = (d.putAtCursor 97).cursorNext := rfl
      rw [hshow, cursorNext_written, putAtCursor, hd, hcol (by decide)]
      exact List.mem_cons_of_mem _ List.mem_cons_self
    show _ ∈ (d.printbyte 97).written
    unfold printbyte
    dsimp only
    split_ifs
    · exact (draws_scrollUp _).grows _ hput
    · exact hput

end Console

end Pebbles
