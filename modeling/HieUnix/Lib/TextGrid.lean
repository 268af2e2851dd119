import Mathlib.Data.List.GetD
import Mathlib.Tactic.Common

/-!
# Text on a grid

What a character screen is for: a text is laid out in rows of a given width, and the grid shows
its last rows. A row is closed by a break character or when it is full, and the open row is the
one the next character goes to. The grid is described cell by cell: `cell_put` and `cell_close`
say how a character and the closing of a row change it, and `cell_eq_blank` that nothing stands
after the open row's end.
-/

/-- A text laid out in rows: the rows that are closed, and the open one. -/
structure TextGrid (β : Type*) where
  closed : List (List β)
  row : List β

namespace TextGrid

variable {β : Type*} (width height : ℕ) (isBreak : β → Bool) (blank : β)

/-- No text. -/
def empty : TextGrid β := ⟨[], []⟩

/-- The text with a character added to the open row. -/
def put (t : TextGrid β) (c : β) : TextGrid β := ⟨t.closed, t.row ++ [c]⟩

/-- The text with the open row closed. -/
def close (t : TextGrid β) : TextGrid β := ⟨t.closed ++ [t.row], []⟩

/-- The text with one more character. -/
def feed (t : TextGrid β) (c : β) : TextGrid β :=
  if isBreak c then t.close
  else if (t.put c).row.length = width then (t.put c).close
  else t.put c

/-- The layout of a string. -/
def layout (cs : List β) : TextGrid β := cs.foldl (feed width isBreak) empty

/-- All rows. -/
def rows (t : TextGrid β) : List (List β) := t.closed ++ [t.row]

/-- The last `height` rows. -/
def lastRows (t : TextGrid β) : List (List β) := t.rows.drop (t.rows.length - height)

/-- The cell of the grid in row `r` and column `c`. -/
def cell (t : TextGrid β) (r c : ℕ) : β := ((t.lastRows height).getD r []).getD c blank

/-- The row of the grid the open row is shown in. -/
def cursorRow (t : TextGrid β) : ℕ := min (height - 1) t.closed.length

variable {width height isBreak blank} {t : TextGrid β} {r c : ℕ}

theorem length_rows (t : TextGrid β) : t.rows.length = t.closed.length + 1 := by
  simp [rows]

/-- A cell, by the number of the row in the text. -/
theorem cell_eq (t : TextGrid β) (r c : ℕ) :
    t.cell height blank r c
      = (t.rows.getD (t.closed.length + 1 - height + r) []).getD c blank := by
  rw [cell, lastRows, length_rows]
  congr 1
  rw [List.getD_eq_getElem?_getD, List.getElem?_drop, List.getD_eq_getElem?_getD]

theorem getD_rows_of_lt {n : ℕ} (h : n < t.closed.length) :
    t.rows.getD n [] = t.closed.getD n [] := by
  rw [rows, List.getD_append _ _ _ _ h]

theorem getD_rows_length (t : TextGrid β) : t.rows.getD t.closed.length [] = t.row := by
  rw [rows, List.getD_append_right _ _ _ _ (Nat.le_refl _), Nat.sub_self]
  rfl

theorem getD_rows_of_gt {n : ℕ} (h : t.closed.length < n) : t.rows.getD n [] = [] := by
  apply List.getD_eq_default
  rw [length_rows]
  omega

/-- Nothing stands after the end of the open row. -/
theorem cell_eq_blank (hh : 0 < height)
    (h : t.cursorRow height < r ∨ r = t.cursorRow height ∧ t.row.length ≤ c) :
    t.cell height blank r c = blank := by
  rw [cursorRow] at h
  rw [cell_eq]
  rcases h with h | ⟨hr, hc⟩
  · rw [getD_rows_of_gt (by omega)]
    rfl
  · have hrow : t.closed.length + 1 - height + r = t.closed.length := by omega
    rw [hrow, getD_rows_length]
    exact List.getD_eq_default _ _ hc

/-- A character changes the cell at the cursor. -/
theorem cell_put (hh : 0 < height) (hr : r < height) (ch : β) :
    (t.put ch).cell height blank r c
      = if r = t.cursorRow height ∧ c = t.row.length then ch else t.cell height blank r c := by
  have hclosed : (t.put ch).closed = t.closed := rfl
  rw [cell_eq, cell_eq, hclosed, cursorRow]
  by_cases hrow : t.closed.length + 1 - height + r = t.closed.length
  · have hnew : (t.put ch).rows.getD t.closed.length [] = t.row ++ [ch] :=
      getD_rows_length (t.put ch)
    rw [hrow, getD_rows_length, hnew]
    have hcur : r = min (height - 1) t.closed.length := by omega
    rcases Nat.lt_trichotomy c t.row.length with hc | hc | hc
    · rw [if_neg (by omega), List.getD_append _ _ _ _ hc]
    · rw [if_pos ⟨hcur, hc⟩, hc, List.getD_append_right _ _ _ _ (Nat.le_refl _), Nat.sub_self]
      rfl
    · rw [if_neg (by omega), List.getD_eq_default _ _ (by simp; omega),
        List.getD_eq_default _ _ (Nat.le_of_lt hc)]
  · rw [if_neg (by omega)]
    rcases Nat.lt_or_ge (t.closed.length + 1 - height + r) t.closed.length with hlt | hge
    · have hnew : (t.put ch).rows.getD (t.closed.length + 1 - height + r) []
          = t.closed.getD (t.closed.length + 1 - height + r) [] := getD_rows_of_lt hlt
      rw [hnew, getD_rows_of_lt hlt]
    · rw [getD_rows_of_gt (t := t.put ch) (by rw [hclosed]; omega), getD_rows_of_gt (by omega)]

theorem getD_rows_close (t : TextGrid β) (n : ℕ) : t.close.rows.getD n [] = t.rows.getD n [] := by
  have hrows : t.close.rows = t.rows ++ [[]] := rfl
  rw [hrows]
  rcases Nat.lt_or_ge n t.rows.length with hn | hn
  · exact List.getD_append _ _ _ _ hn
  · rw [List.getD_append_right _ _ _ _ hn, List.getD_eq_default t.rows _ hn]
    cases n - t.rows.length with
    | zero => rfl
    | succ n => rfl

/-- Closing a row moves the grid up by one row when the cursor is on the last one. -/
theorem cell_close (t : TextGrid β) (r c : ℕ) :
    t.close.cell height blank r c
      = if t.closed.length + 1 < height then t.cell height blank r c
        else t.cell height blank (r + 1) c := by
  have hlen : t.close.closed.length = t.closed.length + 1 := by simp [close]
  rw [cell_eq, cell_eq, cell_eq, hlen, getD_rows_close]
  split
  · rename_i h
    rw [Nat.sub_eq_zero_of_le (by omega), Nat.sub_eq_zero_of_le (by omega)]
  · rename_i h
    congr 2
    omega

/-- Below the grid there is nothing. -/
theorem cell_height (t : TextGrid β) (hh : 0 < height) (c : ℕ) :
    t.cell height blank height c = blank := by
  apply cell_eq_blank hh
  left
  rw [cursorRow]
  omega

@[simp] theorem row_close (t : TextGrid β) : t.close.row = [] := rfl

@[simp] theorem row_put (t : TextGrid β) (ch : β) : (t.put ch).row = t.row ++ [ch] := rfl

@[simp] theorem cursorRow_put (t : TextGrid β) (ch : β) :
    (t.put ch).cursorRow height = t.cursorRow height := rfl

theorem cursorRow_close (t : TextGrid β) :
    t.close.cursorRow height = min (height - 1) (t.closed.length + 1) := by
  simp [cursorRow, close]

/-- The open row is never full. -/
theorem length_row_feed (hw : 0 < width) (ht : t.row.length < width) (ch : β) :
    (t.feed width isBreak ch).row.length < width := by
  rw [feed]
  split
  · exact hw
  · split
    · exact hw
    · rename_i hne
      rw [row_put, List.length_append, List.length_singleton] at hne ⊢
      omega

end TextGrid
