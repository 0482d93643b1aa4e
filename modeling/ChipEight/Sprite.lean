import ChipEight.Frame

/-!
# Sprites

A sprite is a list of rows, a byte each, whose high bit is the leftmost column. Drawing toggles
one pixel for each set bit. `pixels` lists them from the top row down and from left to right, and
`mem_pixels` says which they are.
-/

namespace ChipEight.Sprite

/-- Columns of a sprite. -/
def cols : Nat := 8

/-- Whether a row has a pixel in a column, counted from the left. -/
def hasPixel (row : UInt8) (col : Nat) : Bool := row.toNat.testBit (7 - col)

/-- The pixels of one row whose left end lies at a place. -/
def rowPixels (x y : Nat) (row : UInt8) : List (Nat × Nat) :=
  ((List.range cols).filter (hasPixel row)).map fun col => (x + col, y)

/-- The pixels of a sprite whose top left corner lies at a place. -/
def pixels (x y : Nat) : List UInt8 → List (Nat × Nat)
  | [] => []
  | row :: rest => rowPixels x y row ++ pixels x (y + 1) rest

/-- A sprite covers the pixels of its set bits and no others. -/
theorem mem_pixels {x y : Nat} {rows : List UInt8} {p : Nat × Nat} :
    p ∈ pixels x y rows ↔
      ∃ r col, ∃ h : r < rows.length, col < cols ∧ hasPixel rows[r] col = true ∧
        p = (x + col, y + r) := by
  induction rows generalizing y with
  | nil => simp [pixels]
  | cons row rest ih =>
    simp only [pixels, List.mem_append, ih, rowPixels, List.mem_map, List.mem_filter,
      List.mem_range]
    constructor
    · rintro (⟨col, ⟨hc, hp⟩, rfl⟩ | ⟨r, col, hr, hc, hp, rfl⟩)
      · exact ⟨0, col, by simp, hc, hp, rfl⟩
      · exact ⟨r + 1, col, by simpa using hr, hc, hp, by simp; omega⟩
    · rintro ⟨r, col, hr, hc, hp, rfl⟩
      cases r with
      | zero => exact .inl ⟨col, ⟨hc, hp⟩, rfl⟩
      | succ r => exact .inr ⟨r, col, by simpa using hr, hc, hp, by simp; omega⟩

end ChipEight.Sprite
