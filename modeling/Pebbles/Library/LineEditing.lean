import Mathlib.Data.List.Induction

/-! # Line editing

A line as it comes about key by key: an erasing key takes the last element away, if there is one,
and every other key appends itself. The keys of a line may be edited in parts, each part on its own;
then an erasing key that finds its own part empty is in *excess*, and what it would have erased is
counted off the part before. -/

namespace LineEditing

variable {α β : Type*} (erases : α → Bool)

/-- One key. -/
def press (line : List α) (a : α) : List α := if erases a then line.dropLast else line ++ [a]

/-- Keys in a row. -/
def edit (line keys : List α) : List α := keys.foldl (press erases) line

/-- The number of erasing keys that find an empty line, from a line of a given length on. -/
def excessFrom : Nat → List α → Nat
  | _, [] => 0
  | n, a :: as =>
      if erases a then
        match n with
        | 0 => excessFrom 0 as + 1
        | m + 1 => excessFrom m as
      else excessFrom (n + 1) as

/-- The number of erasing keys in excess. -/
def excess (keys : List α) : Nat := excessFrom erases 0 keys

variable {erases} {line keys keys' : List α} {a : α}

theorem press_of_erases (h : erases a = true) : press erases line a = line.dropLast := if_pos h

theorem press_of_not_erases (h : erases a = false) : press erases line a = line ++ [a] := by
  rw [press, h, if_neg Bool.false_ne_true]

/-- What a key leaves is from the line and the key. -/
theorem press_sublist (erases : α → Bool) (line : List α) (a : α) :
    (press erases line a).Sublist (line ++ [a]) := by
  unfold press
  split_ifs
  · exact (List.dropLast_sublist line).trans (List.sublist_append_left line [a])
  · exact List.Sublist.refl _

@[simp] theorem edit_nil : edit erases line [] = line := rfl

@[simp] theorem edit_cons : edit erases line (a :: keys) = edit erases (press erases line a) keys :=
  rfl

theorem edit_append : edit erases line (keys ++ keys') = edit erases (edit erases line keys) keys' :=
  List.foldl_append

theorem edit_concat : edit erases line (keys ++ [a]) = press erases (edit erases line keys) a := by
  rw [edit_append, edit_cons, edit_nil]

/-- **Editing in parts**: what a part leaves of the line before it, and what it leaves of itself. -/
theorem edit_line_append (erases : α → Bool) (before line keys : List α) :
    edit erases (before ++ line) keys =
      before.take (before.length - excessFrom erases line.length keys) ++ edit erases line keys := by
  induction keys generalizing before line with
  | nil => simp [excessFrom]
  | cons a as ih =>
      by_cases ha : erases a = true
      · rw [edit_cons, edit_cons, press_of_erases ha, press_of_erases ha]
        cases line using List.reverseRecOn with
        | nil =>
            -- the key is in excess
            have hparts := ih before.dropLast []
            rw [List.append_nil] at hparts
            rw [List.append_nil, hparts, List.dropLast_nil, List.length_dropLast]
            simp only [excessFrom, ha, if_true, List.length_nil]
            rw [List.dropLast_eq_take, List.take_take]
            congr 2
            omega
        | append_singleton line b =>
            rw [← List.append_assoc, List.dropLast_concat, List.dropLast_concat, ih before line]
            simp [excessFrom, ha]
      · rw [Bool.not_eq_true] at ha
        rw [edit_cons, edit_cons, press_of_not_erases ha, press_of_not_erases ha, List.append_assoc,
          ih before (line ++ [a])]
        simp [excessFrom, ha]

/-- A part of a line is edited on its own. -/
theorem edit_eq_take_append (erases : α → Bool) (line keys : List α) :
    edit erases line keys =
      line.take (line.length - excess erases keys) ++ edit erases [] keys := by
  simpa [excess] using edit_line_append erases line [] keys

/-- What is left is from the line or from the keys. -/
theorem mem_edit {x : α} (h : x ∈ edit erases line keys) : x ∈ line ∨ x ∈ keys := by
  induction keys generalizing line with
  | nil => exact Or.inl h
  | cons a as ih =>
      rcases ih h with hline | htail
      · by_cases ha : erases a = true
        · rw [press_of_erases ha] at hline
          exact Or.inl (List.dropLast_subset _ hline)
        · rw [Bool.not_eq_true] at ha
          rw [press_of_not_erases ha, List.mem_append, List.mem_singleton] at hline
          rcases hline with hline | rfl
          · exact Or.inl hline
          · exact Or.inr List.mem_cons_self
      · exact Or.inr (List.mem_cons_of_mem _ htail)

/-- The line is no longer than the line before with all keys. -/
theorem length_edit_le : (edit erases line keys).length ≤ line.length + keys.length := by
  induction keys generalizing line with
  | nil => exact Nat.le_refl _
  | cons a as ih =>
      have hpress : (press erases line a).length ≤ line.length + 1 := by
        unfold press
        split_ifs
        · rw [List.length_dropLast]
          omega
        · exact Nat.le_of_eq List.length_append
      have htail : (edit erases (press erases line a) as).length
          ≤ (press erases line a).length + as.length := ih
      rw [edit_cons, List.length_cons]
      omega

/-- Editing names instead of elements. -/
theorem map_edit {erases' : β → Bool} {f : α → β} (hf : ∀ a, erases' (f a) = erases a) :
    (edit erases line keys).map f = edit erases' (line.map f) (keys.map f) := by
  induction keys generalizing line with
  | nil => rfl
  | cons a as ih =>
      rw [edit_cons, ih, List.map_cons, edit_cons, press, press, hf a]
      by_cases ha : erases a = true
      · rw [if_pos ha, if_pos ha, List.map_dropLast]
      · rw [if_neg ha, if_neg ha, List.map_append, List.map_singleton]

end LineEditing
