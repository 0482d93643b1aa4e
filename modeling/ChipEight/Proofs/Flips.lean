import Mathlib.Algebra.Ring.Parity
import Mathlib.Data.List.Basic
import Mathlib.Data.List.ProdSigma
import Mathlib.Data.Nat.Bitwise
import ChipEight.Proofs.Effect

/-!
# Drawing is flipping

A sprite is drawn by flipping one cell for each of its pixels. Flips of a list of cells come to
nothing but the parity of how often each cell is in the list, so their order does not matter.

* `lit_flips`, `flips_perm`: the parity of flips
* `stamp_fst`: a stamp is the flips of the cells that its pixels fall on
* `stamped_fst`: for a sprite in memory these are the cells that its bits land on
* `stamped_eq_flips`: on the screen they are `Machine.sent`
-/

namespace ChipEight

namespace Frame

variable {f : Frame} {i : Nat} {cells cells' : List Nat}

/-! ## Parity -/

/-- Flips cells one after the other. -/
def flips (f : Frame) (cells : List Nat) : Frame := cells.foldl flip f

@[simp] theorem flips_nil (f : Frame) : f.flips [] = f := rfl

@[simp] theorem flips_cons (f : Frame) (i : Nat) (cells : List Nat) :
    f.flips (i :: cells) = (f.flip i).flips cells := rfl

theorem flips_append (f : Frame) (cells cells' : List Nat) :
    f.flips (cells ++ cells') = (f.flips cells).flips cells' := List.foldl_append

@[simp] theorem cols_flips (f : Frame) (cells : List Nat) : (f.flips cells).cols = f.cols := by
  induction cells generalizing f with
  | nil => rfl
  | cons i rest ih => rw [flips_cons, ih, cols_flip]

@[simp] theorem rows_flips (f : Frame) (cells : List Nat) : (f.flips cells).rows = f.rows := by
  induction cells generalizing f with
  | nil => rfl
  | cons i rest ih => rw [flips_cons, ih, rows_flip]

/-- A cell ends up changed if it was flipped an odd number of times. -/
theorem lit_flips (hi : i < f.cols * f.rows) (cells : List Nat) :
    (f.flips cells).lit i = (f.lit i ^^ decide (Odd (cells.count i))) := by
  induction cells generalizing f with
  | nil => simp
  | cons j rest ih =>
    rw [flips_cons, ih (by simpa using hi), lit_flip]
    by_cases hj : j = i
    · subst hj
      rw [if_pos ⟨rfl, hi⟩, List.count_cons_self]
      simp only [Nat.odd_add_one, decide_not, Bool.not_bne, Bool.bne_not]
    · rw [if_neg fun h => hj h.1, List.count_cons_of_ne hj]

theorem flips_perm (h : cells.Perm cells') : f.flips cells = f.flips cells' := by
  refine ext_lit (by simp) (by simp) fun i hi => ?_
  have hi' : i < f.cols * f.rows := by simpa using hi
  rw [lit_flips hi', lit_flips hi', h.count_eq]

/-! ## Stamps -/

/-- A stamp flips the cells that its pixels fall on. They are the same all the way through, since
flips keep the size of a frame. -/
theorem stamp_fst (f : Frame) (pixels : List (Nat × Nat)) :
    (f.stamp pixels).1 = f.flips (pixels.map fun pixel => f.target pixel.1 pixel.2) := by
  have key : ∀ drawn : Frame × Bool,
      (pixels.foldl (fun drawn pixel =>
        let next := drawn.1.toggle pixel.1 pixel.2
        (next.1, drawn.2 || next.2)) drawn).1 =
      drawn.1.flips (pixels.map fun pixel => drawn.1.target pixel.1 pixel.2) := by
    induction pixels with
    | nil => exact fun drawn => rfl
    | cons pixel rest ih =>
      intro drawn
      rw [List.foldl_cons, ih, List.map_cons, flips_cons, toggle_fst]
      simp only [target_flip]
  exact key (f, false)

end Frame

/-! ## The pixels of a sprite -/

namespace Sprite

/-- A pixel of a row is a bit of its byte, counted from the high end. -/
theorem hasPixel_iff {row : UInt8} {col : Nat} (h : col < 8) :
    hasPixel row col = true ↔ row &&& (0x80 >>> UInt8.ofNat col) ≠ 0 := by
  have hmask : ∀ col < 8, ((0x80 : UInt8) >>> UInt8.ofNat col).toNat = 2 ^ (7 - col) := by decide
  rw [hasPixel, ne_eq, ← UInt8.toNat_inj, UInt8.toNat_and, hmask col h, Nat.and_two_pow]
  cases row.toNat.testBit (7 - col) with
  | false => simp
  | true => simp

theorem pixels_eq_flatMap (x y : Nat) (rows : List UInt8) :
    pixels x y rows =
      (List.range rows.length).flatMap fun r => rowPixels x (y + r) (rows.getD r 0) := by
  induction rows generalizing y with
  | nil => rfl
  | cons row rest ih =>
    rw [pixels, ih, List.length_cons, List.range_succ_eq_map, List.flatMap_cons, List.flatMap_map]
    congr 1
    refine List.flatMap_congr fun r _ => ?_
    rw [List.getD_cons_succ, Nat.add_assoc, Nat.add_comm 1 r]

end Sprite

/-- The cell of a grid that a pixel lands on. A coordinate past the edge comes back by a dimension,
once. The cell may lie past the last one. -/
def landing (cols rows x y : Nat) : Nat :=
  (if x ≤ cols then x else x - cols) + (if y ≤ rows then y else y - rows) * cols

/-- The cell of the screen that a pixel is sent to. It may lie past the last cell. -/
def screenCell (x y : Nat) : Nat :=
  (if x ≤ 64 then x else x - 64) + (if y ≤ 32 then y else y - 32) * 64

theorem Frame.target_eq_landing (f : Frame) (x y : Nat) :
    f.target x y = landing f.cols f.rows x y := by
  simp only [target, pullBack, landing]
  grind

namespace Machine

/-- The bits that are set in the bytes from the index on, as row and column, row by row from the
left. -/
def bits (m : Machine) (height : Nat) : List (Nat × Nat) :=
  (List.range height ×ˢ List.range 8).filter fun bit =>
    m.memory.byteAt (m.index.toNat + bit.1) &&& (0x80 >>> UInt8.ofNat bit.2) ≠ 0

/-- The pixel of a bit, for a sprite with its corner at `Vx`, `Vy`. -/
def pixelOf (m : Machine) (x y : Register) (bit : Nat × Nat) : Nat × Nat :=
  ((m.registers.get x).toNat + bit.2, (m.registers.get y).toNat + bit.1)

/-- The cell that the pixel of a bit lands on. -/
def cellOf (m : Machine) (x y : Register) (bit : Nat × Nat) : Nat :=
  landing m.frame.cols m.frame.rows (m.pixelOf x y bit).1 (m.pixelOf x y bit).2

/-- The pixels that a sprite toggles, in order. -/
def toggled (m : Machine) (x y : Register) (height : Nat) : List (Nat × Nat) :=
  (m.bits height).map (m.pixelOf x y)

/-- How many bits of a sprite land on a cell. -/
def hits (m : Machine) (x y : Register) (height cell : Nat) : Nat :=
  ((m.bits height).map (m.cellOf x y)).count cell

/-- The cells that a sprite sends a pixel to, row by row from its left: one for each bit that is
set in the bytes from the index on. -/
def sent (m : Machine) (x y : Register) (height : Nat) : List Nat :=
  (List.range height).flatMap fun r =>
    ((List.range 8).filter fun j =>
      m.memory.byteAt (m.index.toNat + r) &&& (0x80 >>> UInt8.ofNat j) ≠ 0).map fun j =>
        screenCell ((m.registers.get x).toNat + j) ((m.registers.get y).toNat + r)

variable {m : Machine}

/-- The bits of a sprite row by row. -/
theorem bits_eq_flatMap (m : Machine) (height : Nat) :
    m.bits height =
      (List.range height).flatMap fun r =>
        ((List.range 8).filter fun j =>
          m.memory.byteAt (m.index.toNat + r) &&& (0x80 >>> UInt8.ofNat j) ≠ 0).map (r, ·) := by
  show ((List.range height).flatMap fun r => (List.range 8).map (r, ·)).filter _ = _
  rw [List.filter_flatMap]
  exact List.flatMap_congr fun r _ => List.filter_map

theorem pixels_pointed (m : Machine) (x y : Register) (height : Nat) :
    Sprite.pixels (m.registers.get x).toNat (m.registers.get y).toNat (m.pointed height) =
      m.toggled x y height := by
  have hlen : (m.pointed height).length = height := by simp [pointed]
  rw [Sprite.pixels_eq_flatMap, hlen, toggled, bits_eq_flatMap, List.map_flatMap]
  refine List.flatMap_congr fun r hr => ?_
  have hget : (m.pointed height).getD r 0 = m.memory.byteAt (m.index.toNat + r) := by
    simp [pointed, List.mem_range.mp hr]
  have hbits : (List.range Sprite.cols).filter (Sprite.hasPixel ((m.pointed height).getD r 0)) =
      (List.range 8).filter fun j =>
        m.memory.byteAt (m.index.toNat + r) &&& (0x80 >>> UInt8.ofNat j) ≠ 0 := by
    refine List.filter_congr fun j hj => ?_
    rw [hget, Bool.eq_iff_iff, Sprite.hasPixel_iff (List.mem_range.mp hj), decide_eq_true_eq]
  rw [Sprite.rowPixels, hbits, List.map_map]
  rfl

theorem stamped_eq (m : Machine) (x y : Register) (height : Nat) :
    m.stamped x y height = m.frame.stamp (m.toggled x y height) := by
  rw [stamped, pixels_pointed]

theorem map_target_toggled (m : Machine) (x y : Register) (height : Nat) :
    ((m.toggled x y height).map fun pixel => m.frame.target pixel.1 pixel.2) =
      (m.bits height).map (m.cellOf x y) := by
  rw [toggled, List.map_map]
  exact List.map_congr_left fun bit _ => Frame.target_eq_landing _ _ _

/-- A sprite flips the cells that its bits land on. -/
theorem stamped_fst (m : Machine) (x y : Register) (height : Nat) :
    (m.stamped x y height).1 = m.frame.flips ((m.bits height).map (m.cellOf x y)) := by
  rw [stamped_eq, Frame.stamp_fst, map_target_toggled]

theorem stamped_eq_flips (hc : m.frame.cols = 64) (hr : m.frame.rows = 32)
    (x y : Register) (height : Nat) :
    (m.stamped x y height).1 = m.frame.flips (m.sent x y height) := by
  rw [stamped_fst, bits_eq_flatMap, List.map_flatMap, sent]
  congr 1
  refine List.flatMap_congr fun r _ => ?_
  rw [List.map_map]
  refine List.map_congr_left fun j _ => ?_
  show landing m.frame.cols m.frame.rows _ _ = _
  rw [hc, hr]
  rfl

end Machine

end ChipEight
