import ChipEight.Console.Journal
import ChipEight.Picture.Texture

/-!
# Windows

A window shows a frame, each cell as a square of `scale` by `scale` pixels. To draw a frame it lays
the frame's raster into a fresh texture and stretches that over its whole area: a pixel shows the
cell that lies under its centre. A window is black until a frame is drawn.

No raster has the size of a window without columns or rows, so drawing on one fails, and it stays
black. A dimension that would be 0 pixels is 1.
-/

namespace ChipEight

/-- A window for frames of a size. -/
structure Window where
  cols : Nat
  rows : Nat
  scale : Nat
  /-- a texture as it is handed out to be written to, whatever it holds -/
  fresh : Texture cols rows
  /-- the texture on show -/
  shown : Option (Texture cols rows)

namespace Window

/-- A new window is black. -/
def opened {cols rows : Nat} (fresh : Texture cols rows) (scale : Nat) : Window where
  cols
  rows
  scale
  fresh
  shown := none

/-- A black window with textures of zeros. -/
def black (cols rows scale : Nat) : Window := opened (.aligned cols rows) scale

/-- Pixels in a row. -/
def width (w : Window) : Nat := max 1 (w.cols * w.scale)

/-- Rows of pixels. -/
def height (w : Window) : Nat := max 1 (w.rows * w.scale)

/-- Whether frames can be drawn. -/
def drawable (w : Window) : Bool := w.cols != 0 && w.rows != 0

/-- Shows a frame of the window's size. -/
def draw (w : Window) (f : Frame) : Window :=
  if w.drawable then { w with shown := some (w.fresh.upload f.raster) } else w

/-- The notes on drawing a frame. -/
def drawNotes (w : Window) : List Note := if w.drawable then [] else [.unpainted]

/-- The cell along one dimension that lies under the centre of a pixel. -/
def under (cells pixels pixel : Nat) : Nat := (2 * pixel + 1) * cells / (2 * pixels)

/-- One channel of a pixel. -/
def channel (w : Window) (x y c : Nat) : UInt8 :=
  match w.shown with
  | none => 0
  | some texture => texture.channel (under w.cols w.width x) (under w.rows w.height y) c

/-- The bytes of all pixels, row after row from the top. -/
def bytes (w : Window) : Array UInt8 :=
  Array.ofFn (n := channels * (w.width * w.height)) fun i =>
    let pixel := i.val / channels
    w.channel (pixel % w.width) (pixel / w.width) (i.val % channels)

/-- Obeys a signal. The tone is not for the window. -/
def receive (w : Window) : Signal → Window
  | .picture f => w.draw f
  | _ => w

/-- The window after signals. -/
def receiveAll (w : Window) (signals : List Signal) : Window := signals.foldl receive w

theorem draw_of_not_drawable {w : Window} (h : w.drawable = false) (f : Frame) : w.draw f = w :=
  if_neg (by simp [h])

theorem draw_of_drawable {w : Window} (h : w.drawable = true) (f : Frame) :
    w.draw f = { w with shown := some (w.fresh.upload f.raster) } :=
  if_pos h

@[simp] theorem width_draw (w : Window) (f : Frame) : (w.draw f).width = w.width := by
  unfold draw
  split <;> rfl

@[simp] theorem height_draw (w : Window) (f : Frame) : (w.draw f).height = w.height := by
  unfold draw
  split <;> rfl

@[simp] theorem size_bytes (w : Window) : w.bytes.size = channels * (w.width * w.height) :=
  Array.size_ofFn

/-- On a window with whole squares a pixel shows the cell of its square. -/
theorem under_eq {cells scale pixel : Nat} (hc : 0 < cells) (hs : 0 < scale) :
    under cells (max 1 (cells * scale)) pixel = pixel / scale := by
  have h1 : max 1 (cells * scale) = cells * scale :=
    Nat.max_eq_right (Nat.mul_pos hc hs)
  have h2 : 2 * (cells * scale) = (2 * scale) * cells := by
    rw [Nat.mul_comm cells scale, Nat.mul_assoc]
  rw [under, h1, h2, Nat.mul_div_mul_right _ _ hc, ← Nat.div_div_eq_div_mul]
  congr 1
  omega

end Window

end ChipEight
