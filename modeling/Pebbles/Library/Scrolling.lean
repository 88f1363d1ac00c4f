import Mathlib.Tactic.Common

/-! # Text on a sheet and on a screen

Text is laid out on a sheet of a given width without an end: a character goes to the cursor and
moves it on, at the end of a line to the beginning of the next one; a newline begins a new line, and
a return goes back to the beginning of the same line, where further characters overwrite. A screen
has a given number of lines. When the cursor leaves its last line, everything moves one line up and
the last line becomes blank. `Shows.put` says that the screen always holds the last lines of the
sheet. -/

namespace Scrolling

variable {α : Type*} {h w top : Nat} {blank : α}

/-! ## The sheet -/

/-- What is printed. -/
inductive Mark (α : Type*) where
  /-- The beginning of a new line. -/
  | newline
  /-- Back to the beginning of the line. -/
  | home
  /-- A character. -/
  | glyph (a : α)

/-- An unbounded sheet, with a cursor. -/
structure Sheet (α : Type*) where
  /-- The line of the cursor. -/
  row : Nat
  /-- The column of the cursor. -/
  col : Nat
  /-- The characters. -/
  cell : Nat → Nat → α

namespace Sheet

/-- An empty sheet. -/
def empty (blank : α) : Sheet α := ⟨0, 0, fun _ _ => blank⟩

/-- The sheet with a character at the cursor. -/
def write (s : Sheet α) (a : α) : Sheet α :=
  { s with cell := fun i j => if i = s.row ∧ j = s.col then a else s.cell i j }

/-- Printing on a sheet with lines of `w` characters. -/
def put (w : Nat) (s : Sheet α) : Mark α → Sheet α
  | .newline => { s with row := s.row + 1, col := 0 }
  | .home => { s with col := 0 }
  | .glyph a =>
      if s.col + 1 < w then { s.write a with col := s.col + 1 }
      else { s.write a with row := s.row + 1, col := 0 }

/-- **The layout** of a text. -/
def layout (w : Nat) (blank : α) (text : List (Mark α)) : Sheet α :=
  text.foldl (put w) (empty blank)

/-- The first of the last `h` lines. -/
def first (h : Nat) (s : Sheet α) : Nat := s.row + 1 - h

/-- The cursor stands in a line of `w` characters, and all lines below it are blank. -/
structure Clean (w : Nat) (blank : α) (s : Sheet α) : Prop where
  /-- The column. -/
  col : s.col < w
  /-- The lines below. -/
  below : ∀ i j, s.row < i → s.cell i j = blank

variable {s : Sheet α}

/-- The cursor stays in its line or goes to the next one. -/
theorem put_row (w : Nat) (s : Sheet α) (m : Mark α) :
    (s.put w m).row = s.row ∨ (s.put w m).row = s.row + 1 ∧ (s.put w m).col = 0 := by
  cases m with
  | newline => exact Or.inr ⟨rfl, rfl⟩
  | home => exact Or.inl rfl
  | glyph a =>
      unfold put
      split_ifs
      · exact Or.inl rfl
      · exact Or.inr ⟨rfl, rfl⟩

/-- Only the line of the cursor is written. -/
theorem put_cell (w : Nat) (s : Sheet α) (m : Mark α) {i j : Nat} (hi : i ≠ s.row) :
    (s.put w m).cell i j = s.cell i j := by
  cases m with
  | newline => rfl
  | home => rfl
  | glyph a =>
      have hwrite : (s.write a).cell i j = s.cell i j := if_neg fun heq => hi heq.1
      unfold put
      split_ifs
      · exact hwrite
      · exact hwrite

theorem clean_empty (wide : 0 < w) (blank : α) : (empty blank).Clean w blank :=
  ⟨wide, fun _ _ _ => rfl⟩

/-- Printing leaves the lines below the cursor blank. -/
theorem Clean.put (clean : s.Clean w blank) (wide : 0 < w) (m : Mark α) :
    (s.put w m).Clean w blank := by
  refine ⟨?_, fun i j hi => ?_⟩
  · cases m with
    | newline => exact wide
    | home => exact wide
    | glyph a =>
        unfold Sheet.put
        split_ifs with hcol
        · exact hcol
        · exact wide
  · have hbelow : s.row < i := by
      rcases put_row w s m with hrow | ⟨hrow, -⟩ <;> omega
    rw [put_cell w s m (Nat.ne_of_gt hbelow)]
    exact clean.below i j hbelow

/-- The next line stays blank. -/
theorem Clean.fresh (clean : s.Clean w blank) (m : Mark α) (j : Nat) :
    (s.put w m).cell (s.row + 1) j = blank := by
  rw [put_cell w s m (Nat.succ_ne_self _)]
  exact clean.below _ j (Nat.lt_succ_self _)

end Sheet

/-! ## The screen -/

/-- A screen of `h` lines of `w` characters, with a cursor. -/
@[ext] structure Screen (α : Type*) (h w : Nat) where
  /-- The line of the cursor. -/
  row : Nat
  /-- The column of the cursor. -/
  col : Nat
  /-- The characters. -/
  cell : Fin h → Fin w → α

namespace Screen

/-- The screen with a character at the cursor. -/
def write (c : Screen α h w) (a : α) : Screen α h w :=
  { c with cell := fun i j => if i.val = c.row ∧ j.val = c.col then a else c.cell i j }

/-- Printing, before the test for a full screen. -/
def draw (c : Screen α h w) : Mark α → Screen α h w
  | .newline => { c with row := c.row + 1, col := 0 }
  | .home => { c with col := 0 }
  | .glyph a =>
      if c.col + 1 < w then { c.write a with col := c.col + 1 }
      else { c.write a with row := c.row + 1, col := 0 }

/-- One line up. -/
def scroll (blank : α) (c : Screen α h w) : Screen α h w where
  row := c.row - 1
  col := c.col
  cell i j := if hi : i.val + 1 < h then c.cell ⟨i.val + 1, hi⟩ j else blank

/-- **Printing** on the screen. -/
def put (blank : α) (c : Screen α h w) (m : Mark α) : Screen α h w :=
  if (c.draw m).row = h then (c.draw m).scroll blank else c.draw m

/-! ## The screen shows the sheet -/

/-- The screen shows the lines of the sheet from `top` on. -/
structure ShowsFrom (top : Nat) (c : Screen α h w) (s : Sheet α) : Prop where
  /-- The line of the cursor. -/
  row : top + c.row = s.row
  /-- Its column. -/
  col : c.col = s.col
  /-- The characters. -/
  cell : ∀ i j, c.cell i j = s.cell (top + i.val) j.val

/-- **The screen shows the last lines** up to the one of the cursor. -/
def Shows (c : Screen α h w) (s : Sheet α) : Prop := c.ShowsFrom (s.first h) s

variable {c : Screen α h w} {s : Sheet α}

/-- What is printed goes to the same place. -/
theorem ShowsFrom.draw (shows : c.ShowsFrom top s) (m : Mark α) :
    (c.draw m).ShowsFrom top (s.put w m) := by
  have hrow := shows.row
  have hcol := shows.col
  cases m with
  | newline =>
      refine ⟨?_, rfl, shows.cell⟩
      change top + (c.row + 1) = s.row + 1
      omega
  | home => exact ⟨hrow, rfl, shows.cell⟩
  | glyph a =>
      have hcell : ∀ i j, (c.write a).cell i j = (s.write a).cell (top + i.val) j.val := by
        intro i j
        have hplace : i.val = c.row ∧ j.val = c.col ↔ top + i.val = s.row ∧ j.val = s.col := by
          omega
        change (if _ then a else c.cell i j) = if _ then a else s.cell (top + i.val) j.val
        rw [shows.cell i j]
        simp only [hplace]
      unfold Screen.draw Sheet.put
      rw [hcol]
      split_ifs with hnext
      · exact ⟨hrow, rfl, hcell⟩
      · refine ⟨?_, rfl, hcell⟩
        change top + (c.row + 1) = s.row + 1
        omega

/-- Scrolling shows the next line, which is blank. -/
theorem ShowsFrom.scroll (shows : c.ShowsFrom top s) (full : c.row = h) (high : 0 < h)
    (fresh : ∀ j, s.cell s.row j = blank) : (c.scroll blank).ShowsFrom (top + 1) s := by
  have hrow := shows.row
  refine ⟨?_, shows.col, fun i j => ?_⟩
  · change top + 1 + (c.row - 1) = s.row
    have hpos : 0 < c.row := Nat.lt_of_lt_of_eq high full.symm
    omega
  · unfold Screen.scroll
    dsimp only
    split_ifs with hi
    · rw [shows.cell]
      congr 1
      dsimp only
      omega
    · have hlast : top + 1 + i.val = s.row := by
        have := i.isLt
        omega
      rw [hlast, fresh]

/-- The cursor is on the screen. -/
theorem Shows.row_lt (shows : c.Shows s) : c.row < h := by
  have hrow := shows.row
  unfold Sheet.first at hrow
  omega

/-- **Printing on the screen shows the printing on the sheet.** -/
theorem Shows.put (shows : c.Shows s) (clean : s.Clean w blank) (high : 0 < h) (m : Mark α) :
    (c.put blank m).Shows (s.put w m) := by
  have hlt := shows.row_lt
  have hdraw := ShowsFrom.draw shows m
  have hrow := hdraw.row
  have hbefore := shows.row
  unfold Sheet.first at hrow hbefore
  unfold Screen.put
  split_ifs with hfull
  · -- the cursor has left the last line
    have hnext : (s.put w m).row = s.row + 1 := by
      rcases s.put_row w m with hsame | ⟨hnext, -⟩
      · omega
      · exact hnext
    have hfresh : ∀ j, (s.put w m).cell (s.put w m).row j = blank := by
      rw [hnext]
      exact clean.fresh m
    have hfirst : (s.put w m).first h = s.first h + 1 := by
      unfold Sheet.first
      omega
    unfold Shows
    rw [hfirst]
    exact hdraw.scroll hfull high hfresh
  · have hfirst : (s.put w m).first h = s.first h := by
      unfold Sheet.first
      rcases s.put_row w m with hsame | ⟨hnext, -⟩ <;> omega
    unfold Shows
    rw [hfirst]
    exact hdraw

/-- **The screen shows the layout**, when it is blank to begin with. -/
theorem shows_layout (high : 0 < h) (wide : 0 < w) (blank : α) (text : List (Mark α)) :
    (text.foldl (Screen.put blank) ⟨0, 0, fun _ _ => blank⟩ : Screen α h w).Shows
      (Sheet.layout w blank text) := by
  -- the sheet stays clean along the text
  suffices hall : ∀ (text : List (Mark α)) (c : Screen α h w) (s : Sheet α), c.Shows s →
      s.Clean w blank → (text.foldl (Screen.put blank) c).Shows (text.foldl (Sheet.put w) s) by
    refine hall text _ _ ⟨?_, rfl, fun _ _ => rfl⟩ (Sheet.clean_empty wide blank)
    change (0 + 1 - h) + 0 = 0
    omega
  intro text
  induction text with
  | nil => exact fun c s shows _ => shows
  | cons m text ih =>
      intro c s shows clean
      exact ih _ _ (shows.put clean high m) (clean.put wide m)

end Screen

end Scrolling
