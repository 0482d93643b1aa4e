import Mathlib.Data.Int.ModEq
import Mathlib.Data.List.Nodup
import ChipEight.Proofs.Collision
import ChipEight.Proofs.Parity

/-!
# Drawing a sprite twice

A sprite that is drawn a second time in the same place flips the same cells back. On a frame that
is not smaller than a sprite no two of its bits land on one cell, whatever its corner: the edge
that splits it sends its parts to different columns and rows.

* `landing_inj`: pixels that are less than a frame apart land on different cells
* `hits_le_one`: so at most one bit of a sprite lands on a cell
* `redraw_restores`: the frame and the flag after a `Dxyn` and after a second one
-/

namespace ChipEight

/-! ## Landing places -/

variable {cols rows x y x' y' : Nat}

/-- Coming back from the edge keeps the column of a cell. -/
theorem landing_mod (cols rows x y : Nat) : landing cols rows x y % cols = x % cols := by
  rw [landing, Nat.add_mul_mod_self_right]
  split
  · rfl
  · next h => rw [Nat.mod_eq_sub_mod (Nat.le_of_not_le h)]

/-- Pixels that are less than a frame apart, across and down, land on different cells. -/
theorem landing_inj (hx : x < x' + cols) (hx' : x' < x + cols) (hy : y < y' + rows)
    (hy' : y' < y + rows) (h : landing cols rows x y = landing cols rows x' y') :
    x = x' ∧ y = y' := by
  have hmod : x % cols = x' % cols := by rw [← landing_mod cols rows x y, h, landing_mod]
  obtain rfl : x = x' := Nat.ModEq.eq_of_abs_lt hmod (abs_lt.mpr ⟨by omega, by omega⟩)
  -- the columns are the same, so the rows that the pixels come back to are
  have hrow : (if y ≤ rows then y else y - rows) = if y' ≤ rows then y' else y' - rows :=
    Nat.eq_of_mul_eq_mul_right (by omega) (Nat.add_left_cancel h)
  refine ⟨rfl, ?_⟩
  -- one of them past the edge and the other not, they would be a whole frame apart
  split at hrow <;> split at hrow <;> omega

namespace Frame

/-! ## Flipping back -/

theorem flips_flips (f : Frame) (cells : List Nat) : (f.flips cells).flips cells = f := by
  rw [← flips_append]
  refine ext_lit (by simp) (by simp) fun i hi => ?_
  have hi' : i < f.cols * f.rows := by simpa using hi
  have heven : ¬ Odd ((cells ++ cells).count i) := by
    rw [List.count_append, Nat.not_odd_iff_even]
    exact Even.add_self _
  rw [lit_flips hi', decide_eq_false heven, Bool.xor_false]

/-- The cells that pixels fall on depend on the size of a frame alone. -/
theorem map_target_stamp (f : Frame) (drawn pixels : List (Nat × Nat)) :
    (pixels.map fun pixel => (f.stamp drawn).1.target pixel.1 pixel.2) =
      pixels.map fun pixel => f.target pixel.1 pixel.2 := by
  simp only [target, cols_stamp, rows_stamp]

/-- A second stamp undoes the first. -/
theorem stamp_stamp_fst (f : Frame) (pixels : List (Nat × Nat)) :
    ((f.stamp pixels).1.stamp pixels).1 = f := by
  rw [stamp_fst, map_target_stamp, stamp_fst, flips_flips]

/-- Flips of different cells erase those that are lit. -/
theorem erases_iff_of_nodup {f : Frame} {cells : List Nat} (h : cells.Nodup) :
    f.erases cells = true ↔ ∃ c < f.cols * f.rows, 0 < cells.count c ∧ f.lit c = true := by
  rw [erases_iff]
  have hle : ∀ c, cells.count c ≤ 1 := List.nodup_iff_count_le_one.mp h
  refine exists_congr fun c => and_congr_right fun _ => ?_
  have hc := hle c
  constructor
  · rintro (h2 | ⟨h1, hlit⟩)
    · omega
    · exact ⟨by omega, hlit⟩
  · rintro ⟨hpos, hlit⟩
    exact .inr ⟨by omega, hlit⟩

/-- A second stamp of different cells erases those that were unlit before the first. -/
theorem stamp_stamp_snd_iff {f : Frame} {pixels : List (Nat × Nat)}
    (h : (pixels.map fun pixel => f.target pixel.1 pixel.2).Nodup) :
    ((f.stamp pixels).1.stamp pixels).2 = true ↔
      ∃ c < f.cols * f.rows,
        0 < (pixels.map fun pixel => f.target pixel.1 pixel.2).count c ∧ f.lit c = false := by
  rw [stamp_snd, map_target_stamp, erases_iff_of_nodup h, cols_stamp, rows_stamp]
  refine exists_congr fun c => and_congr_right fun hc => and_congr_right fun hpos => ?_
  have hone : (pixels.map fun pixel => f.target pixel.1 pixel.2).count c = 1 :=
    Nat.le_antisymm (List.nodup_iff_count_le_one.mp h c) hpos
  rw [stamp_fst, lit_flips hc, hone]
  simp

end Frame

namespace Machine

variable {settings : Settings} {pad : HexPad} {m : Machine} {w : UInt16}

/-! ## Bits of one sprite -/

theorem nodup_bits (m : Machine) (height : Nat) : (m.bits height).Nodup :=
  (List.nodup_range.product List.nodup_range).filter _

theorem lt_of_mem_bits {height : Nat} {bit : Nat × Nat} (h : bit ∈ m.bits height) :
    bit.1 < height ∧ bit.2 < 8 := by
  obtain ⟨hr, hj⟩ := List.mem_product.mp (List.mem_of_mem_filter h)
  exact ⟨List.mem_range.mp hr, List.mem_range.mp hj⟩

/-- On a frame that is not smaller than a sprite, its bits land on different cells. -/
theorem eq_of_cellOf_eq {x y : Register} {height : Nat} (hc : 8 ≤ m.frame.cols)
    (hr : height ≤ m.frame.rows) {a b : Nat × Nat} (ha : a ∈ m.bits height)
    (hb : b ∈ m.bits height) (h : m.cellOf x y a = m.cellOf x y b) : a = b := by
  obtain ⟨har, haj⟩ := lt_of_mem_bits ha
  obtain ⟨hbr, hbj⟩ := lt_of_mem_bits hb
  obtain ⟨hcol, hrow⟩ :
      (m.registers.get x).toNat + a.2 = (m.registers.get x).toNat + b.2 ∧
        (m.registers.get y).toNat + a.1 = (m.registers.get y).toNat + b.1 :=
    landing_inj (by omega) (by omega) (by omega) (by omega) h
  exact Prod.ext (Nat.add_left_cancel hrow) (Nat.add_left_cancel hcol)

theorem nodup_cells {x y : Register} {height : Nat} (hc : 8 ≤ m.frame.cols)
    (hr : height ≤ m.frame.rows) : ((m.bits height).map (m.cellOf x y)).Nodup :=
  (m.nodup_bits height).map_on fun _ ha _ hb h => eq_of_cellOf_eq hc hr ha hb h

theorem hits_le_one {x y : Register} {height : Nat} (hc : 8 ≤ m.frame.cols)
    (hr : height ≤ m.frame.rows) (c : Nat) : m.hits x y height c ≤ 1 :=
  List.nodup_iff_count_le_one.mp (nodup_cells hc hr) c

/-! ## The same word again -/

/-- A sprite whose corner is not told by the flag goes to the same pixels a second time. -/
theorem toggled_after_draw (hw : Word.family w = 0xD) (hx : Word.x w ≠ flag)
    (hy : Word.y w ≠ flag) (height : Nat) :
    (m.after settings pad w).toggled (Word.x w) (Word.y w) height =
      m.toggled (Word.x w) (Word.y w) height := by
  have hregister : ∀ z : Register, z ≠ flag →
      (m.after settings pad w).registers.get z = m.registers.get z := by
    intro z hz
    rw [registers_after_draw hw, Registers.get_set, if_neg fun h => hz h.symm]
  have hbits : (m.after settings pad w).bits height = m.bits height := by
    unfold bits
    rw [memory_after (Instruction.ofWord_eq_of_spells (.draw hw)), index_after_draw hw]
    rfl
  unfold toggled
  rw [hbits]
  refine List.map_congr_left fun bit _ => ?_
  rw [pixelOf, pixelOf, hregister _ hx, hregister _ hy]

/-- A `Dxyn` whose corner is not told by the flag, carried out twice in a row, leaves the frame as it
was. On a frame of eight columns or more that has no fewer rows than the sprite, no two bits of the
sprite land on one cell, wherever its corner is; the screen is such a frame for every sprite. The
first flag then tells whether a cell under the sprite was lit, and the second whether one was not. -/
theorem redraw_restores :
    (∀ settings pad (m : Machine) w, Word.family w = 0xD → Word.x w ≠ flag → Word.y w ≠ flag →
      m.index.toNat + Word.n w ≤ 0x1000 →
      let hits := m.hits (Word.x w) (Word.y w) (Word.n w)
      let grid := m.frame.cols * m.frame.rows
      ∃ m₁ m₂, m.perform settings pad w = .done m₁ ∧ m₁.perform settings pad w = .done m₂ ∧
        m₂.frame = m.frame ∧
        (8 ≤ m.frame.cols → Word.n w ≤ m.frame.rows →
          (m₁.registers.get flag = 1 ↔ ∃ c < grid, 0 < hits c ∧ m.frame.lit c = true) ∧
          (m₂.registers.get flag = 1 ↔ ∃ c < grid, 0 < hits c ∧ m.frame.lit c = false))) ∧
    (∀ (m : Machine) x y height, 8 ≤ m.frame.cols → height ≤ m.frame.rows →
      (∀ a ∈ m.bits height, ∀ b ∈ m.bits height, m.cellOf x y a = m.cellOf x y b → a = b) ∧
      ∀ c, m.hits x y height c ≤ 1) ∧
    ∀ settings random events x y (height : Fin 16) c,
      ((Console.start settings random).run events).machine.hits x y height c ≤ 1 := by
  refine ⟨?_, ?_, ?_⟩
  · intro settings pad m w hw hx hy hfit hits grid
    let pixels := m.toggled (Word.x w) (Word.y w) (Word.n w)
    let m₁ := m.after settings pad w
    let m₂ := m₁.after settings pad w
    have hfit₁ : m₁.index.toNat + Word.n w ≤ 0x1000 := by
      rwa [show m₁.index = m.index from index_after_draw hw]
    have hstamp₁ : m.stamped (Word.x w) (Word.y w) (Word.n w) = m.frame.stamp pixels :=
      stamped_eq m _ _ _
    have hstamp₂ : m₁.stamped (Word.x w) (Word.y w) (Word.n w) =
        (m.frame.stamp pixels).1.stamp pixels := by
      rw [stamped_eq, toggled_after_draw hw hx hy, frame_after_draw hw, hstamp₁]
    refine ⟨m₁, m₂, perform_draw hw hfit, perform_draw hw hfit₁, ?_, ?_⟩
    · rw [frame_after_draw hw, hstamp₂, Frame.stamp_stamp_fst]
    · intro hc hr
      have hcells : pixels.map (fun pixel => m.frame.target pixel.1 pixel.2) =
          (m.bits (Word.n w)).map (m.cellOf (Word.x w) (Word.y w)) :=
        map_target_toggled m _ _ _
      have hnodup : (pixels.map fun pixel => m.frame.target pixel.1 pixel.2).Nodup := by
        rw [hcells]
        exact nodup_cells hc hr
      constructor
      · rw [flag_after_draw hw, bit_eq_one_iff, hstamp₁, Frame.stamp_snd,
          Frame.erases_iff_of_nodup hnodup, hcells]
        rfl
      · rw [flag_after_draw hw, bit_eq_one_iff, hstamp₂, Frame.stamp_stamp_snd_iff hnodup, hcells]
        rfl
  · intro m x y height hc hr
    exact ⟨fun a ha b hb => eq_of_cellOf_eq hc hr ha hb, hits_le_one hc hr⟩
  · intro settings random events x y height c
    obtain ⟨hc, hr⟩ := (Console.onScreen_start settings random).run events
    exact hits_le_one (by omega) (by omega) c

/-- A machine with a full row at its index and its corner four columns from the edge of the
screen. The first cell of the second row is lit. -/
def atEdge : Machine :=
  { State.initial (Frame.screen.flip 64) with
    registers := Registers.zero.set v0 60
    memory := Memory.zero.overwrite 0 [0xFF]
    random := .ofSeed 0 }

/-- The fifth bit spills over the edge to the lit cell and erases it. The second time the others
are erased. -/
theorem redraw_restores_at_edge :
    ∃ m₁ m₂, atEdge.perform {} .released 0xD011 = .done m₁ ∧
      m₁.perform {} .released 0xD011 = .done m₂ ∧ m₂.frame = atEdge.frame ∧
      m₁.registers.get flag = 1 ∧ m₂.registers.get flag = 1 := by
  have hbits : atEdge.bits 1 = (List.range 8).map (0, ·) := bits_of_full_row byteAt_full_row
  have hhits : ∀ c, atEdge.hits 0x0 0x1 1 c = [60, 61, 62, 63, 64, 1, 2, 3].count c := by
    intro c
    rw [hits, hbits]
    rfl
  have hhits60 : atEdge.hits (Word.x 0xD011) (Word.y 0xD011) (Word.n 0xD011) 60 = 1 := hhits 60
  have hhits64 : atEdge.hits (Word.x 0xD011) (Word.y 0xD011) (Word.n 0xD011) 64 = 1 := hhits 64
  have hlit : ∀ c, atEdge.frame.lit c =
      if 64 = c ∧ c < 64 * 32 then !Frame.screen.lit c else Frame.screen.lit c :=
    Frame.lit_flip Frame.screen 64
  have hscreen : ∀ c, Frame.screen.lit c = false := Frame.lit_blank 64 32
  obtain ⟨m₁, m₂, h₁, h₂, hframe, hflags⟩ :=
    redraw_restores.1 {} .released atEdge 0xD011 (by decide) (by decide) (by decide) (by decide)
  obtain ⟨hflag₁, hflag₂⟩ := hflags (by decide) (by decide)
  refine ⟨m₁, m₂, h₁, h₂, hframe, hflag₁.mpr ⟨64, by decide, ?_, ?_⟩,
    hflag₂.mpr ⟨60, by decide, ?_, ?_⟩⟩
  · rw [hhits64]
    decide
  · rw [hlit, if_pos (by decide), hscreen]
    rfl
  · rw [hhits60]
    decide
  · rw [hlit, if_neg (by decide), hscreen]

end Machine

end ChipEight
