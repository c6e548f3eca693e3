import Mathlib.Logic.Function.Basic
import Mathlib.Algebra.Order.Group.Nat

/-!
# A character terminal

A grid of cells and a cursor that is always inside it. Writing moves the cursor on, from
the end of a row to the next row and from the end of the last row to a fresh one: the
top row is then dropped and a blank one appended. Cells hold values of any type, with
one of them the blank.
-/

/-- A terminal of `rows` rows and `cols` columns. Only the cells inside the grid mean
anything. -/
structure Terminal (α : Type*) (rows cols : ℕ) where
  /-- The content of row `r`, column `c`. -/
  cell : ℕ → ℕ → α
  /-- Column of the cursor. -/
  x : ℕ
  /-- Row of the cursor. -/
  y : ℕ
  x_lt : x < cols
  y_lt : y < rows

namespace Terminal

variable {α : Type*} {rows cols : ℕ}

/-- What can be typed. -/
inductive Key (α : Type*) where
  | glyph (a : α)
  | newline
  | carriageReturn
  | backspace
  | tab

variable (blank : α)

/-- An empty terminal with the cursor at the origin. -/
def clear (hr : 0 < rows) (hc : 0 < cols) : Terminal α rows cols :=
  ⟨fun _ _ => blank, 0, 0, hc, hr⟩

/-- Drop the top row and append a blank one. -/
def scroll (rows : ℕ) (cell : ℕ → ℕ → α) : ℕ → ℕ → α :=
  fun r c => if r + 1 < rows then cell (r + 1) c else blank

/-- Store `a` in row `r`, column `c`. -/
def store (cell : ℕ → ℕ → α) (r c : ℕ) (a : α) : ℕ → ℕ → α :=
  Function.update cell r (Function.update (cell r) c a)

/-- To the start of the next row, which may be a fresh one. -/
def lineFeed (T : Terminal α rows cols) : Terminal α rows cols :=
  if h : T.y + 1 < rows then
    ⟨T.cell, 0, T.y + 1, Nat.zero_lt_of_lt T.x_lt, h⟩
  else
    ⟨scroll blank rows T.cell, 0, T.y, Nat.zero_lt_of_lt T.x_lt, T.y_lt⟩

/-- Store `a` at the cursor and move on. -/
def put (a : α) (T : Terminal α rows cols) : Terminal α rows cols :=
  if h : T.x + 1 < cols then
    ⟨store T.cell T.y T.x a, T.x + 1, T.y, h, T.y_lt⟩
  else
    lineFeed blank ⟨store T.cell T.y T.x a, T.x, T.y, T.x_lt, T.y_lt⟩

/-- One cell back, and stay at the origin. -/
def back (T : Terminal α rows cols) : Terminal α rows cols :=
  if T.x = 0 then
    if T.y = 0 then T
    else ⟨T.cell, cols - 1, T.y - 1, by have := T.x_lt; omega, by have := T.y_lt; omega⟩
  else ⟨T.cell, T.x - 1, T.y, by have := T.x_lt; omega, T.y_lt⟩

/-- Blank the cell at the cursor. -/
def erase (T : Terminal α rows cols) : Terminal α rows cols :=
  ⟨store T.cell T.y T.x blank, T.x, T.y, T.x_lt, T.y_lt⟩

/-- The effect of a key, with a tab stop every `tabSize` columns. -/
def press (tabSize : ℕ) : Key α → Terminal α rows cols → Terminal α rows cols
  | .glyph a, T => put blank a T
  | .newline, T => lineFeed blank T
  | .carriageReturn, T => ⟨T.cell, 0, T.y, Nat.zero_lt_of_lt T.x_lt, T.y_lt⟩
  | .backspace, T => erase blank (back T)
  | .tab, T => (put blank blank)^[tabSize - T.x % tabSize] T

/-- The effect of a sequence of keys. -/
def type (tabSize : ℕ) (keys : List (Key α)) (T : Terminal α rows cols) :
    Terminal α rows cols :=
  keys.foldl (fun T k => press blank tabSize k T) T

theorem store_apply (cell : ℕ → ℕ → α) (r c : ℕ) (a : α) (i j : ℕ) :
    store cell r c a i j = if i = r ∧ j = c then a else cell i j := by
  by_cases hi : i = r
  · subst i
    by_cases hj : j = c
    · simp [store, hj]
    · simp [store, hj]
  · simp [store, hi]

/-- A simulation of single keys extends to sequences of keys. -/
theorem type_simulates {σ : Type*} {R : σ → Terminal α rows cols → Prop} {tabSize : ℕ}
    (step : Key α → σ → σ)
    (hstep : ∀ k s T, R s T → R (step k s) (press blank tabSize k T))
    (keys : List (Key α)) {s : σ} {T : Terminal α rows cols} (h : R s T) :
    R (keys.foldl (fun s k => step k s) s) (type blank tabSize keys T) := by
  induction keys generalizing s T with
  | nil => exact h
  | cons k keys ih =>
      apply ih
      exact hstep k s T h

end Terminal
