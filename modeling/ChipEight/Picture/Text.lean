import ChipEight.Frame

/-!
# Frames as text

A row of a frame as a line of characters, `#` for a lit cell and `.` for an unlit one.
-/

namespace ChipEight.Frame

/-- The character of a cell. -/
def mark (lit : Bool) : Char := if lit then '#' else '.'

/-- The cells of a row from the left. -/
def row (f : Frame) (y : Nat) : List Bool := (List.range f.cols).map fun x => f.isSet x y

/-- A row as text. -/
def rowText (f : Frame) (y : Nat) : String := String.ofList ((f.row y).map mark)

/-- All rows as lines of text. -/
def text (f : Frame) : String := "\n".intercalate ((List.range f.rows).map f.rowText)

end ChipEight.Frame
