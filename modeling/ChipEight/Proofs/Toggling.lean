import ChipEight.Proofs.Redrawing

/-!
# Toggles by column and row

A toggle goes to the number that its pixel lands on, in the rows laid end to end, and `isSet` names
a cell by column and row. On a grid of any size division leads from the one name to the other: the
cell of the number `i` is in column `i % cols` and row `i / cols`.

* `number_eq_iff`: which column and row have a number
* `isSet_flip_self`, `isSet_flip_of_ne`: what a flip does to columns and rows
* `flip_flip`, `flip_comm`: flips undo themselves and do not disturb each other
* `size_edited`: no sequence of toggles and clearings changes the size
* `toggle_flips_landing`: a toggle anywhere, on a grid of any size
-/

namespace ChipEight

/-! ## Numbers of cells -/

variable {cols rows x y a b i : Nat}

theorem number_eq_iff (ha : a < cols) : a + b * cols = i ↔ a = i % cols ∧ b = i / cols := by
  have hpos : 0 < cols := Nat.zero_lt_of_lt ha
  constructor
  · rintro rfl
    rw [Nat.add_mul_mod_self_right, Nat.add_mul_div_right _ _ hpos]
    simp [Nat.mod_eq_of_lt ha, Nat.div_eq_of_lt ha]
  · rintro ⟨rfl, rfl⟩
    exact Nat.mod_add_div' i cols

/-- A number of a cell is that of a column and row inside the grid. -/
theorem mod_lt_and_div_lt (hi : i < cols * rows) : i % cols < cols ∧ i / cols < rows := by
  have hpos : 0 < cols := Nat.pos_of_mul_pos_right (Nat.zero_lt_of_lt hi)
  exact ⟨Nat.mod_lt i hpos, Nat.div_lt_of_lt_mul hi⟩

/-- On a grid of less than 2³¹ columns and rows, pixels below 2³² land on numbers of 64 bits. -/
theorem landing_lt_size (hc : cols < 0x80000000) (hx : x < 0x100000000) (hy : y < 0x100000000) :
    landing cols rows x y < UInt64.size := by
  have hcol : (if x ≤ cols then x else x - cols) < 0x100000000 := by split <;> omega
  have hrow : (if y ≤ rows then y else y - rows) < 0x100000000 := by split <;> omega
  have hmul : (if y ≤ rows then y else y - rows) * cols ≤ 0x100000000 * 0x80000000 :=
    Nat.mul_le_mul (Nat.le_of_lt hrow) (Nat.le_of_lt hc)
  have hsize : UInt64.size = 0x10000000000000000 := rfl
  rw [landing]
  omega

namespace Frame

/-- What can be done to a frame. -/
inductive Edit where
  | toggle (x y : Nat)
  | clear

/-- The frame after an edit. -/
def edit (f : Frame) : Edit → Frame
  | .toggle x y => (f.toggle x y).1
  | .clear => f.clear

/-- The frame after edits. -/
def edited (f : Frame) (edits : List Edit) : Frame := edits.foldl edit f

variable {f : Frame} {j : Nat}

/-! ## One flip -/

theorem lit_flip_self (hi : i < f.cols * f.rows) : (f.flip i).lit i = !f.lit i := by
  simp [lit_flip, hi]

theorem lit_flip_of_ne (h : i ≠ j) : (f.flip i).lit j = f.lit j := by
  simp [lit_flip, h]

/-- A flip changes one cell. -/
theorem lit_flip_ne_iff (hi : i < f.cols * f.rows) : (f.flip i).lit j ≠ f.lit j ↔ j = i := by
  by_cases hj : i = j
  · subst hj
    simp [lit_flip_self hi]
  · simp [lit_flip_of_ne hj, Ne.symm hj]

/-- A number past the last cell flips nothing. -/
theorem flip_of_le (h : f.cols * f.rows ≤ i) : f.flip i = f := by
  refine ext_lit rfl rfl fun j hj => lit_flip_of_ne ?_
  rintro rfl
  exact absurd hj (Nat.not_lt.mpr h)

theorem isSet_of_number (hi : i < f.cols * f.rows) :
    f.isSet (i % f.cols) (i / f.cols) = f.lit i := by
  obtain ⟨ha, hb⟩ := mod_lt_and_div_lt hi
  rw [isSet_eq ha hb, (number_eq_iff ha).mpr ⟨rfl, rfl⟩]

theorem isSet_flip_self (hi : i < f.cols * f.rows) :
    (f.flip i).isSet (i % f.cols) (i / f.cols) = !f.isSet (i % f.cols) (i / f.cols) := by
  have hflip : (f.flip i).isSet (i % f.cols) (i / f.cols) = (f.flip i).lit i := isSet_of_number hi
  rw [hflip, lit_flip_self hi, isSet_of_number hi]

/-- The columns and rows of other cells keep what they show, and so do those outside the grid. -/
theorem isSet_flip_of_ne (h : (a, b) ≠ (i % f.cols, i / f.cols)) :
    (f.flip i).isSet a b = f.isSet a b := by
  show (decide (a < f.cols) && decide (b < f.rows) && (f.flip i).lit (a + b * f.cols)) = _
  by_cases ha : a < f.cols
  · have hne : i ≠ a + b * f.cols := by
      intro hi
      obtain ⟨rfl, rfl⟩ := (number_eq_iff ha).mp hi.symm
      exact h rfl
    rw [lit_flip_of_ne hne]
    rfl
  · simp [isSet, ha]

/-! ## Several flips -/

theorem flip_flip (f : Frame) (i : Nat) : (f.flip i).flip i = f := flips_flips f [i]

theorem flip_comm (f : Frame) (i j : Nat) : (f.flip i).flip j = (f.flip j).flip i := by
  have hswap : [i, j].Perm [j, i] := .swap j i []
  exact flips_perm hswap

/-- No edit changes the size of a frame. -/
theorem size_edited (f : Frame) (edits : List Edit) :
    (f.edited edits).cols = f.cols ∧ (f.edited edits).rows = f.rows := by
  induction edits generalizing f with
  | nil => exact ⟨rfl, rfl⟩
  | cons edit rest ih =>
    cases edit with
    | toggle x y => exact ih (f.toggle x y).1
    | clear => exact ih f.clear

/-! ## Toggles -/

theorem toggle_eq (f : Frame) (x y : Nat) :
    f.toggle x y = (f.flip (landing f.cols f.rows x y), f.lit (landing f.cols f.rows x y)) := by
  rw [← target_eq_landing]
  rfl

/-- A toggle inside the grid changes what its own column and row show, and no others. -/
theorem isSet_toggle (hx : x < f.cols) (hy : y < f.rows) :
    (f.toggle x y).1.isSet x y = (!f.isSet x y) ∧
      ∀ a b, (a, b) ≠ (x, y) → (f.toggle x y).1.isSet a b = f.isSet a b := by
  obtain ⟨hcol, hrow⟩ := (number_eq_iff hx).mp rfl
  have hself := isSet_flip_self (number_lt hx hy)
  rw [toggle_fst, target_eq (Nat.le_of_lt hx) (Nat.le_of_lt hy)]
  rw [← hcol, ← hrow] at hself
  refine ⟨hself, fun a b hne => isSet_flip_of_ne ?_⟩
  rw [← hcol, ← hrow]
  exact hne

/-- Toggles on a grid of any size, degenerate ones among them.

* A pixel that lands past the last cell changes nothing and erases nothing.
* Any other changes the one cell that it lands on, whose column and row are told by division, and
  says whether that cell was lit. Within 2³¹ columns and rows and for pixels below 2³², the number
  of the cell is one of 64 bits.
* A pixel inside the grid lands where it is.
* Toggles undo themselves, do not disturb each other, and keep the size of the frame. -/
theorem toggle_flips_landing (f : Frame) :
    (∀ x y, let i := landing f.cols f.rows x y
      (f.cols < 0x80000000 → f.rows < 0x80000000 → x < 0x100000000 → y < 0x100000000 →
        i < UInt64.size) ∧
      (f.cols * f.rows ≤ i → f.toggle x y = (f, false)) ∧
      (i < f.cols * f.rows →
        (∀ j, (f.toggle x y).1.lit j ≠ f.lit j ↔ j = i) ∧
        (f.toggle x y).1.isSet (i % f.cols) (i / f.cols) = (!f.isSet (i % f.cols) (i / f.cols)) ∧
        (∀ a b, (a, b) ≠ (i % f.cols, i / f.cols) →
          (f.toggle x y).1.isSet a b = f.isSet a b) ∧
        ((f.toggle x y).2 = true ↔ f.isSet (i % f.cols) (i / f.cols) = true))) ∧
    (∀ x y, x < f.cols → y < f.rows →
      (f.toggle x y).1.isSet x y = (!f.isSet x y) ∧
      ∀ a b, (a, b) ≠ (x, y) → (f.toggle x y).1.isSet a b = f.isSet a b) ∧
    (∀ x y, ((f.toggle x y).1.toggle x y).1 = f) ∧
    (∀ x y x' y', ((f.toggle x y).1.toggle x' y').1 = ((f.toggle x' y').1.toggle x y).1) ∧
    ∀ edits, (f.edited edits).cells.size = f.cols * f.rows ∧
      (f.edited edits).cols = f.cols ∧ (f.edited edits).rows = f.rows := by
  refine ⟨?_, ?_, ?_, ?_, ?_⟩
  · intro x y i
    have htoggle : f.toggle x y = (f.flip i, f.lit i) := toggle_eq f x y
    rw [htoggle]
    refine ⟨fun hc _ hx hy => landing_lt_size hc hx hy, ?_, ?_⟩
    · intro hi
      rw [flip_of_le hi, lit_of_le hi]
    · intro hi
      refine ⟨fun j => lit_flip_ne_iff hi, isSet_flip_self hi,
        fun a b hne => isSet_flip_of_ne hne, ?_⟩
      rw [isSet_of_number hi]
  · exact fun x y hx hy => isSet_toggle hx hy
  · intro x y
    rw [toggle_fst, toggle_fst, target_flip, flip_flip]
  · intro x y x' y'
    simp only [toggle_fst, target_flip]
    exact flip_comm f _ _
  · intro edits
    obtain ⟨hc, hr⟩ := size_edited f edits
    exact ⟨by rw [size_cells, hc, hr], hc, hr⟩

/-- On a grid of three columns and two rows, with one cell lit: a pixel on the right edge comes down
to the next row and erases it, one on the lower edge is dropped. -/
theorem toggle_flips_landing_at_edge :
    let f := ((blank 3 2).toggle 0 1).1
    landing f.cols f.rows 3 0 = 3 ∧ landing f.cols f.rows 3 0 < UInt64.size ∧
      (∀ j, (f.toggle 3 0).1.lit j ≠ f.lit j ↔ j = 3) ∧
      f.isSet 0 1 = true ∧ (f.toggle 3 0).1.isSet 0 1 = false ∧ (f.toggle 3 0).2 = true ∧
      (f.toggle 3 0).1.isSet 2 1 = f.isSet 2 1 ∧
      f.toggle 0 2 = (f, false) ∧
      (f.toggle 2 0).1.isSet 2 0 = true ∧ (f.toggle 2 0).1.isSet 0 1 = true := by
  intro f
  obtain ⟨htoggle, hinside, -⟩ := toggle_flips_landing f
  obtain ⟨hsize, -, hflip⟩ := htoggle 3 0
  obtain ⟨hcells, hself, hother, herases⟩ := hflip (by decide)
  have hcol : landing f.cols f.rows 3 0 % f.cols = 0 := by decide
  have hrow : landing f.cols f.rows 3 0 / f.cols = 1 := by decide
  rw [hcol, hrow] at hself hother herases
  obtain ⟨-, hdropped, -⟩ := htoggle 0 2
  obtain ⟨hset, hkept⟩ := hinside 2 0 (by decide) (by decide)
  have hlit : f.isSet 0 1 = true := by decide
  refine ⟨by decide, hsize (by decide) (by decide) (by decide) (by decide), hcells, hlit, ?_,
    herases.mpr hlit, hother 2 1 (by decide), hdropped (by decide), ?_, ?_⟩
  · exact hself.trans (congrArg not hlit)
  · exact hset.trans (by decide)
  · exact (hkept 0 1 (by decide)).trans hlit

end Frame

end ChipEight
