/-!
# Frames

A frame is a grid of cells, lit or unlit, kept row after row. Cells are only flipped or all
cleared, so drawing one picture twice in one place restores what was there.

A cell has two names: the column and row of `isSet`, and its number in the rows laid end to end,
which is the argument of `lit`. The view of a frame is `lit`:

* `lit_flip`: flipping a cell changes that cell and no other
* `toggle_fst`, `toggle_snd`: a toggle flips its target and reports whether the target was lit
* `isSet_eq`: a column and row inside the grid name one cell
* `ext_lit`: frames of one size with the same lit cells are equal
-/

namespace ChipEight

/-- Columns of the machine's screen. -/
def screenCols : Nat := 64

/-- Rows of the machine's screen. -/
def screenRows : Nat := 32

/-- A grid of cells, `true` where lit. -/
structure Frame where
  cols : Nat
  rows : Nat
  cells : Array Bool
  size_cells : cells.size = cols * rows
deriving DecidableEq

namespace Frame

/-- The frame of a size with every cell unlit. -/
def blank (cols rows : Nat) : Frame where
  cols
  rows
  cells := Array.replicate (cols * rows) false
  size_cells := Array.size_replicate

/-- The machine's screen with every cell unlit. -/
def screen : Frame := blank screenCols screenRows

/-- Unlights every cell. -/
def clear (f : Frame) : Frame := blank f.cols f.rows

/-- Whether the cell of a number is lit. Numbers past the last cell are unlit. -/
def lit (f : Frame) (i : Nat) : Bool := f.cells.getD i false

/-- Whether the cell of a column and row is lit. Outside the grid nothing is. -/
def isSet (f : Frame) (x y : Nat) : Bool :=
  decide (x < f.cols) && decide (y < f.rows) && f.lit (x + y * f.cols)

/-- Changes one cell. A number past the last cell changes nothing. -/
def flip (f : Frame) (i : Nat) : Frame where
  cols := f.cols
  rows := f.rows
  cells := f.cells.modify i not
  size_cells := by simp [f.size_cells]

/-- Pulls a coordinate past the edge back by one whole dimension, once. A coordinate that equals
the dimension is not past the edge. -/
def pullBack (dimension coordinate : Nat) : Nat :=
  if dimension < coordinate then coordinate - dimension else coordinate

/-- The number of the cell that a pixel falls on. It may lie past the last cell. Column `cols`
of a row is column 0 of the row below. -/
def target (f : Frame) (x y : Nat) : Nat := pullBack f.cols x + pullBack f.rows y * f.cols

/-- Flips the cell that a pixel falls on, and says whether that erased it. A pixel that falls
outside the grid is dropped and erases nothing. -/
def toggle (f : Frame) (x y : Nat) : Frame × Bool :=
  let erased := f.lit (f.target x y)
  (f.flip (f.target x y), erased)

/-- Toggles pixels in order, and says whether any of them erased a cell. -/
def stamp (f : Frame) (pixels : List (Nat × Nat)) : Frame × Bool :=
  pixels.foldl
    (fun drawn pixel =>
      let next := drawn.1.toggle pixel.1 pixel.2
      (next.1, drawn.2 || next.2))
    (f, false)

/-- How many cells are lit. -/
def litCount (f : Frame) : Nat := f.cells.count true

/-! ## Sizes -/

@[simp] theorem cols_clear (f : Frame) : f.clear.cols = f.cols := rfl

@[simp] theorem rows_clear (f : Frame) : f.clear.rows = f.rows := rfl

@[simp] theorem cols_flip (f : Frame) (i : Nat) : (f.flip i).cols = f.cols := rfl

@[simp] theorem rows_flip (f : Frame) (i : Nat) : (f.flip i).rows = f.rows := rfl

@[simp] theorem target_flip (f : Frame) (i x y : Nat) : (f.flip i).target x y = f.target x y :=
  rfl

/-- Stamping keeps the size of a frame, whatever was drawn on it before. -/
theorem size_foldl_toggle (pixels : List (Nat × Nat)) (drawn : Frame × Bool) :
    let stamped := pixels.foldl
      (fun drawn pixel =>
        let next := drawn.1.toggle pixel.1 pixel.2
        (next.1, drawn.2 || next.2))
      drawn
    stamped.1.cols = drawn.1.cols ∧ stamped.1.rows = drawn.1.rows := by
  induction pixels generalizing drawn with
  | nil => exact ⟨rfl, rfl⟩
  | cons pixel rest ih => exact ih _

@[simp] theorem cols_stamp (f : Frame) (pixels : List (Nat × Nat)) :
    (f.stamp pixels).1.cols = f.cols := (size_foldl_toggle pixels (f, false)).1

@[simp] theorem rows_stamp (f : Frame) (pixels : List (Nat × Nat)) :
    (f.stamp pixels).1.rows = f.rows := (size_foldl_toggle pixels (f, false)).2

/-- A column and row inside the grid have a number inside it. -/
theorem number_lt {cols rows x y : Nat} (hx : x < cols) (hy : y < rows) :
    x + y * cols < cols * rows := by
  have h : (y + 1) * cols ≤ rows * cols := Nat.mul_le_mul_right cols hy
  rw [Nat.succ_mul] at h
  rw [Nat.mul_comm cols rows]
  omega

/-! ## Lit cells -/

theorem lit_of_le {f : Frame} {i : Nat} (h : f.cols * f.rows ≤ i) : f.lit i = false := by
  have : f.cells.size ≤ i := by rw [f.size_cells]; exact h
  simp [lit, Array.getElem?_eq_none this]

@[simp] theorem lit_blank (cols rows i : Nat) : (blank cols rows).lit i = false := by
  simp only [lit, blank, Array.getD_eq_getD_getElem?, Array.getElem?_replicate]
  split <;> rfl

@[simp] theorem lit_clear (f : Frame) (i : Nat) : f.clear.lit i = false := lit_blank _ _ _

theorem lit_flip (f : Frame) (i j : Nat) :
    (f.flip i).lit j = if i = j ∧ j < f.cols * f.rows then !f.lit j else f.lit j := by
  simp only [lit, flip, Array.getD_eq_getD_getElem?, Array.getElem?_modify]
  by_cases h : i = j
  · by_cases hj : j < f.cols * f.rows
    · have hs : j < f.cells.size := by rw [f.size_cells]; exact hj
      simp [h, hj, hs]
    · have hs : f.cells.size ≤ j := by rw [f.size_cells]; omega
      simp [h, hj, Array.getElem?_eq_none hs]
  · simp [h]

theorem ext_lit {f g : Frame} (hc : f.cols = g.cols) (hr : f.rows = g.rows)
    (h : ∀ i, i < f.cols * f.rows → f.lit i = g.lit i) : f = g := by
  obtain ⟨c, r, cells, hs⟩ := f
  obtain ⟨c', r', cells', hs'⟩ := g
  simp only at hc hr
  subst hc hr
  congr 1
  apply Array.ext
  · rw [hs, hs']
  · intro i hi hi'
    have := h i (by rw [← hs]; exact hi)
    simpa [lit, hi, hi'] using this

/-! ## Toggles -/

@[simp] theorem toggle_fst (f : Frame) (x y : Nat) : (f.toggle x y).1 = f.flip (f.target x y) :=
  rfl

@[simp] theorem toggle_snd (f : Frame) (x y : Nat) : (f.toggle x y).2 = f.lit (f.target x y) :=
  rfl

theorem isSet_eq {f : Frame} {x y : Nat} (hx : x < f.cols) (hy : y < f.rows) :
    f.isSet x y = f.lit (x + y * f.cols) := by
  simp [isSet, hx, hy]

theorem target_eq {f : Frame} {x y : Nat} (hx : x ≤ f.cols) (hy : y ≤ f.rows) :
    f.target x y = x + y * f.cols := by
  simp [target, pullBack, Nat.not_lt.mpr hx, Nat.not_lt.mpr hy]

end Frame

end ChipEight
