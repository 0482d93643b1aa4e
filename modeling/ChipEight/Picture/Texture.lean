import ChipEight.Picture.Raster

/-!
# Textures

A texture keeps a picture in rows of `pitch` bytes. The pixels of a row stand at its start; the
rest of it is padding. A raster has no padding, so it is laid into a texture line by line.

The view of a texture is `byte`: a byte of a row.

* `byte_overwrite`: a line that fits a row changes that row and no other
* `byte_lay`: lines that fit change the rows they are laid into and no others
* `channel_upload`: a raster of the texture's size ends up with each pixel in its place
-/

namespace ChipEight

/-- Rows of pixels, each starting `pitch` bytes after the one before. -/
structure Texture (cols rows : Nat) where
  pitch : Nat
  bytes : Array UInt8
  le_pitch : channels * cols ≤ pitch
  size_bytes : bytes.size = pitch * rows

namespace Texture

variable {cols rows : Nat}

/-- A texture of zeros in rows of whole words of four bytes. -/
def aligned (cols rows : Nat) : Texture cols rows where
  pitch := (channels * cols + 3) / 4 * 4
  bytes := Array.replicate ((channels * cols + 3) / 4 * 4 * rows) 0
  le_pitch := by omega
  size_bytes := Array.size_replicate

/-- A byte of a row. -/
def byte (t : Texture cols rows) (row k : Nat) : UInt8 := t.bytes.getD (row * t.pitch + k) 0

/-- One channel of a pixel. -/
def channel (t : Texture cols rows) (x y c : Nat) : UInt8 := t.byte y (channels * x + c)

/-- Replaces one byte. -/
def set (t : Texture cols rows) (i : Nat) (b : UInt8) : Texture cols rows where
  pitch := t.pitch
  bytes := t.bytes.setIfInBounds i b
  le_pitch := t.le_pitch
  size_bytes := by simp [t.size_bytes]

/-- Replaces the bytes from a position on. -/
def overwrite (t : Texture cols rows) (start : Nat) : List UInt8 → Texture cols rows
  | [] => t
  | b :: rest => (t.set start b).overwrite (start + 1) rest

/-- Lays lines into rows, one to a row from a row on. -/
def lay (t : Texture cols rows) (row : Nat) : List (List UInt8) → Texture cols rows
  | [] => t
  | line :: rest => (t.overwrite (row * t.pitch) line).lay (row + 1) rest

/-- The line of a raster that a number of lines of a length stand before. -/
def line (length : Nat) (raster : Array UInt8) (number : Nat) : List UInt8 :=
  (raster.extract (number * length) (number * length + length)).toList

/-- The lines of a raster. The last one is shorter if the length does not divide the raster. -/
def lines (length : Nat) (raster : Array UInt8) : List (List UInt8) :=
  (List.range ((raster.size + length - 1) / length)).map (line length raster)

/-- Lays a raster into the texture from the top. -/
def upload (t : Texture cols rows) (raster : Array UInt8) : Texture cols rows :=
  t.lay 0 (lines (channels * cols) raster)

/-! ## Rows -/

@[simp] theorem pitch_overwrite (t : Texture cols rows) (start : Nat) (bytes : List UInt8) :
    (t.overwrite start bytes).pitch = t.pitch := by
  induction bytes generalizing t start with
  | nil => rfl
  | cons b rest ih => exact ih (t.set start b) (start + 1)

theorem getD_set (t : Texture cols rows) (i : Nat) (b : UInt8) (j : Nat) :
    (t.set i b).bytes.getD j 0 =
      if i = j ∧ j < t.pitch * rows then b else t.bytes.getD j 0 := by
  simp only [set, Array.getD_eq_getD_getElem?, Array.getElem?_setIfInBounds, t.size_bytes]
  by_cases h : i = j
  · subst h
    by_cases hi : i < t.pitch * rows
    · simp [hi]
    · have hs : t.bytes.size ≤ i := by rw [t.size_bytes]; exact Nat.le_of_not_lt hi
      simp [hi, Array.getElem?_eq_none hs]
  · simp [h]

theorem getD_overwrite (t : Texture cols rows) (start : Nat) (bytes : List UInt8) (i : Nat) :
    (t.overwrite start bytes).bytes.getD i 0 =
      if start ≤ i ∧ i < t.pitch * rows then bytes.getD (i - start) (t.bytes.getD i 0)
      else t.bytes.getD i 0 := by
  induction bytes generalizing t start with
  | nil => simp [overwrite]
  | cons b rest ih =>
    rw [overwrite, ih, getD_set]
    show (if start + 1 ≤ i ∧ i < t.pitch * rows then _ else _) = _
    by_cases hi : i < t.pitch * rows
    · obtain h | rfl | h := Nat.lt_trichotomy start i
      · have hnext : i - start = (i - (start + 1)) + 1 := by omega
        simp [hi, Nat.succ_le_of_lt h, Nat.le_of_lt h, Nat.ne_of_lt h, hnext]
      · rw [if_neg fun hnext => Nat.not_succ_le_self start hnext.1, if_pos ⟨rfl, hi⟩,
          if_pos ⟨Nat.le_refl start, hi⟩, Nat.sub_self]
        rfl
      · have hlate : ¬ start + 1 ≤ i := by omega
        simp [hlate, Nat.not_le.mpr h, Nat.ne_of_gt h]
    · simp [hi]

variable {t : Texture cols rows} {y k : Nat}

theorem byte_overwrite {line : List UInt8} (row : Nat) (hl : line.length ≤ t.pitch)
    (hk : k < t.pitch) (hy : y < rows) :
    (t.overwrite (row * t.pitch) line).byte y k =
      if y = row then line.getD k (t.byte y k) else t.byte y k := by
  have hend : y * t.pitch + k < t.pitch * rows := by
    rw [Nat.add_comm]
    exact Frame.number_lt hk hy
  rw [byte, pitch_overwrite, getD_overwrite]
  obtain h | rfl | h := Nat.lt_trichotomy y row
  · -- the row ends before the line starts
    have hbefore : y * t.pitch + k < row * t.pitch := by
      calc y * t.pitch + k < (y + 1) * t.pitch := by rw [Nat.succ_mul]; omega
        _ ≤ row * t.pitch := Nat.mul_le_mul_right _ h
    rw [if_neg (by omega), if_neg (Nat.ne_of_lt h)]
    rfl
  · rw [if_pos ⟨Nat.le_add_right _ _, hend⟩, if_pos rfl, Nat.add_sub_cancel_left]
    rfl
  · -- the row starts after the line has ended
    have hafter : row * t.pitch + t.pitch ≤ y * t.pitch := by
      rw [← Nat.succ_mul]
      exact Nat.mul_le_mul_right _ h
    have hpast : line.length ≤ y * t.pitch + k - row * t.pitch := by omega
    rw [if_pos ⟨by omega, hend⟩, if_neg (Nat.ne_of_gt h), List.getD_eq_getElem?_getD,
      List.getElem?_eq_none hpast]
    rfl

theorem byte_lay {lines : List (List UInt8)} (row : Nat)
    (hl : ∀ line ∈ lines, line.length ≤ t.pitch) (hk : k < t.pitch) (hy : y < rows) :
    (t.lay row lines).byte y k =
      if row ≤ y then (lines.getD (y - row) []).getD k (t.byte y k) else t.byte y k := by
  induction lines generalizing t row with
  | nil => simp [lay]
  | cons line rest ih =>
    have hp := pitch_overwrite t (row * t.pitch) line
    have hrest : ∀ l ∈ rest, l.length ≤ (t.overwrite (row * t.pitch) line).pitch := by
      rw [hp]
      exact fun l h => hl l (List.mem_cons_of_mem _ h)
    have hline : line.length ≤ t.pitch := hl line List.mem_cons_self
    rw [lay, ih (row + 1) hrest (by rwa [hp]), byte_overwrite row hline hk hy]
    obtain h | rfl | h := Nat.lt_trichotomy y row
    · rw [if_neg (by omega), if_neg (Nat.ne_of_lt h), if_neg (Nat.not_le.mpr h)]
    · rw [if_neg (Nat.not_succ_le_self y), if_pos rfl, if_pos (Nat.le_refl y), Nat.sub_self]
      rfl
    · obtain ⟨j, rfl⟩ := Nat.exists_eq_add_of_lt h
      rw [if_pos (by omega), if_neg (by omega), if_pos (by omega),
        show row + j + 1 - (row + 1) = j by omega, show row + j + 1 - row = j + 1 by omega]
      rfl

/-! ## Uploads -/

theorem length_line_le (length : Nat) (raster : Array UInt8) (number : Nat) :
    (line length raster number).length ≤ length := by
  simp only [line, Array.length_toList, Array.size_extract]
  omega

/-- Past the last line there are only empty ones. -/
theorem getD_lines {length : Nat} (h : 0 < length) (raster : Array UInt8) (number : Nat) :
    (lines length raster).getD number [] = line length raster number := by
  by_cases hn : number < (raster.size + length - 1) / length
  · simp [lines, hn]
  · have hend : raster.size ≤ number * length := by
      have := (Nat.div_lt_iff_lt_mul h).mp (Nat.lt_succ_of_le (Nat.le_of_not_lt hn))
      rw [Nat.succ_mul] at this
      omega
    have hline : line length raster number = [] := by
      apply List.eq_nil_of_length_eq_zero
      simp only [line, Array.length_toList, Array.size_extract]
      omega
    simp [lines, hn, hline]

theorem getD_line {length number : Nat} {raster : Array UInt8} (hk : k < length)
    (h : number * length + k < raster.size) (b : UInt8) :
    (line length raster number).getD k b = raster.getD (number * length + k) 0 := by
  have hk' : k < min (number * length + length) raster.size - number * length := by omega
  rw [line, List.getD_eq_getElem?_getD, Array.getElem?_toList, Array.getElem?_extract, if_pos hk']
  simp [h]

/-- An upload shows each pixel of a raster of the texture's size, whatever the texture held. -/
theorem channel_upload (t : Texture cols rows) {raster : Array UInt8} {x c : Nat}
    (hs : raster.size = channels * (cols * rows)) (hx : x < cols) (hy : y < rows)
    (hc : c < channels) :
    (t.upload raster).channel x y c = raster.getD (channels * (x + y * cols) + c) 0 := by
  have hp : channels * cols ≤ t.pitch := t.le_pitch
  have hk : channels * x + c < channels * cols := channel_lt hx hc
  have hnumber : channels * (x + y * cols) + c = y * (channels * cols) + (channels * x + c) := by
    rw [Nat.mul_add, Nat.mul_left_comm]
    omega
  have hend : y * (channels * cols) + (channels * x + c) < raster.size := by
    rw [hs, ← Nat.mul_assoc channels, Nat.add_comm]
    exact Frame.number_lt hk hy
  rw [channel, upload, byte_lay 0 ?_ (Nat.lt_of_lt_of_le hk hp) hy, if_pos (Nat.zero_le y),
    Nat.sub_zero, getD_lines (Nat.zero_lt_of_lt hk), getD_line hk hend, hnumber]
  intro l hl
  obtain ⟨number, -, rfl⟩ := List.mem_map.mp hl
  exact Nat.le_trans (length_line_le _ _ _) hp

end Texture

end ChipEight
