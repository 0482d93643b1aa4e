import ChipEight.Frame

/-!
# Rasters

A raster is a frame as bytes: three for each cell, one for red, green and blue, all 255 where the
cell is lit and 0 where it is not, row after row.
-/

namespace ChipEight

/-- Bytes for a cell. -/
def channels : Nat := 3

/-- The bytes of a cell end before those of the next one start. -/
theorem channel_lt {n count c : Nat} (hn : n < count) (hc : c < channels) :
    channels * n + c < channels * count := by
  calc channels * n + c < channels * (n + 1) := by rw [Nat.mul_succ]; omega
    _ ≤ channels * count := Nat.mul_le_mul_left _ hn

theorem channel_div {n c : Nat} (hc : c < channels) : (channels * n + c) / channels = n := by
  rw [Nat.mul_add_div (by decide), Nat.div_eq_of_lt hc, Nat.add_zero]

theorem channel_mod {n c : Nat} (hc : c < channels) : (channels * n + c) % channels = c := by
  rw [Nat.mul_add_mod, Nat.mod_eq_of_lt hc]

namespace Frame

/-- The brightness of a cell. -/
def brightness (lit : Bool) : UInt8 := if lit then 255 else 0

/-- The bytes of a frame. -/
def raster (f : Frame) : Array UInt8 :=
  Array.ofFn (n := channels * (f.cols * f.rows)) fun i => brightness (f.lit (i.val / channels))

@[simp] theorem size_raster (f : Frame) : f.raster.size = channels * (f.cols * f.rows) := by
  simp [raster]

/-- A byte of a raster tells whether its cell is lit. -/
theorem getD_raster (f : Frame) (i : Nat) :
    f.raster.getD i 0 = brightness (f.lit (i / channels)) := by
  by_cases h : i < channels * (f.cols * f.rows)
  · simp [raster, h]
  · have hc : f.cols * f.rows ≤ i / channels := by
      rw [Nat.le_div_iff_mul_le (by decide), Nat.mul_comm]
      exact Nat.le_of_not_lt h
    simp [raster, h, lit_of_le hc, brightness]

end Frame

end ChipEight
