import ChipEight.Proofs.Flips
import ChipEight.Proofs.Step

/-!
# What the flag tells of a sprite

A sprite is drawn pixel by pixel, and the flag is raised as soon as a pixel erases a cell. Several
pixels may land on one cell, so on the way a cell can be erased that was unlit before and is unlit
after.

* `erases_iff`: whether flips erase anything, told from how often each cell is flipped
* `stamp_perm`: so the order in which pixels are drawn does not matter
* `flag_tells_collision`: the flag and the frame after a `Dxyn`
-/

namespace ChipEight

namespace Frame

variable {f : Frame}

/-! ## Erased cells -/

/-- Whether flips of cells, one after the other, erase any. -/
def erases (f : Frame) : List Nat → Bool
  | [] => false
  | i :: rest => f.lit i || (f.flip i).erases rest

theorem lt_of_lit {i : Nat} (h : f.lit i = true) : i < f.cols * f.rows := by
  refine Nat.lt_of_not_le fun hle => ?_
  rw [lit_of_le hle] at h
  cases h

/-- Flips erase a cell that is flipped more than once, and a lit cell that is flipped once. -/
theorem erases_iff (f : Frame) (cells : List Nat) :
    f.erases cells = true ↔
      ∃ i < f.cols * f.rows, 2 ≤ cells.count i ∨ cells.count i = 1 ∧ f.lit i = true := by
  induction cells generalizing f with
  | nil => simp [erases]
  | cons j rest ih =>
    rw [erases, Bool.or_eq_true, ih]
    have hself : j < f.cols * f.rows → (f.flip j).lit j = !f.lit j :=
      fun hj => by rw [lit_flip, if_pos ⟨rfl, hj⟩]
    have hother : ∀ i, j ≠ i → (f.flip j).lit i = f.lit i :=
      fun i hi => by rw [lit_flip, if_neg fun h => hi h.1]
    constructor
    · rintro (hlit | ⟨i, hi, hc⟩)
      · refine ⟨j, lt_of_lit hlit, ?_⟩
        rw [List.count_cons_self]
        rcases Nat.eq_zero_or_pos (rest.count j) with h0 | hpos
        · exact .inr ⟨by rw [h0], hlit⟩
        · exact .inl (Nat.succ_le_succ hpos)
      · refine ⟨i, hi, ?_⟩
        by_cases hij : j = i
        · -- flipped once more than in the rest, where it was flipped already
          subst hij
          rw [List.count_cons_self]
          omega
        · rwa [List.count_cons_of_ne hij, ← hother i hij]
    · rintro ⟨i, hi, hc⟩
      by_cases hij : j = i
      · subst hij
        rw [List.count_cons_self] at hc
        cases hlit : f.lit j with
        | true => exact .inl rfl
        | false =>
          -- the first flip lights the cell, so there is a second, and that one erases it
          rw [hlit] at hc
          refine .inr ⟨j, hi, ?_⟩
          rw [hself hi, hlit]
          simp only [Bool.false_eq_true, and_false, or_false, Bool.not_false, and_true] at hc ⊢
          omega
      · refine .inr ⟨i, hi, ?_⟩
        rwa [List.count_cons_of_ne hij, ← hother i hij] at hc

/-- A stamp tells whether the flips of its pixels erase anything. -/
theorem stamp_snd (f : Frame) (pixels : List (Nat × Nat)) :
    (f.stamp pixels).2 = f.erases (pixels.map fun pixel => f.target pixel.1 pixel.2) := by
  have key : ∀ drawn : Frame × Bool,
      (pixels.foldl (fun drawn pixel =>
        let next := drawn.1.toggle pixel.1 pixel.2
        (next.1, drawn.2 || next.2)) drawn).2 =
      (drawn.2 || drawn.1.erases (pixels.map fun pixel => drawn.1.target pixel.1 pixel.2)) := by
    induction pixels with
    | nil => exact fun drawn => (Bool.or_false _).symm
    | cons pixel rest ih =>
      intro drawn
      rw [List.foldl_cons, ih, List.map_cons, erases]
      simp only [toggle_fst, toggle_snd, target_flip, Bool.or_assoc]
  exact (key (f, false)).trans (Bool.false_or _)

theorem erases_perm {cells cells' : List Nat} (h : cells.Perm cells') :
    f.erases cells = f.erases cells' := by
  rw [Bool.eq_iff_iff, erases_iff, erases_iff]
  simp only [h.count_eq]

/-- In what order the pixels of a stamp are toggled makes no difference. -/
theorem stamp_perm {pixels pixels' : List (Nat × Nat)} (h : pixels.Perm pixels') :
    f.stamp pixels = f.stamp pixels' := by
  refine Prod.ext ?_ ?_
  · rw [stamp_fst, stamp_fst, flips_perm (h.map _)]
  · rw [stamp_snd, stamp_snd, erases_perm (h.map _)]

end Frame

namespace Machine

variable {settings : Settings} {pad : HexPad} {m : Machine} {w : UInt16}

/-! ## Sprites in memory -/

/-- A sprite erases something where more than one of its bits lands, and where one lands on a lit
cell. -/
theorem stamped_snd_iff (m : Machine) (x y : Register) (height : Nat) :
    (m.stamped x y height).2 = true ↔
      ∃ c < m.frame.cols * m.frame.rows,
        2 ≤ m.hits x y height c ∨ m.hits x y height c = 1 ∧ m.frame.lit c = true := by
  rw [stamped_eq, Frame.stamp_snd, map_target_toggled]
  exact Frame.erases_iff _ _

/-- A sprite flips the cells that an odd number of its bits land on. -/
theorem lit_stamped (m : Machine) (x y : Register) (height : Nat) {c : Nat}
    (hc : c < m.frame.cols * m.frame.rows) :
    (m.stamped x y height).1.lit c =
      (m.frame.lit c ^^ decide (Odd (m.hits x y height c))) := by
  rw [stamped_fst]
  exact Frame.lit_flips hc _

/-- A `Dxyn` whose sprite lies in memory is carried out. -/
theorem perform_draw (hw : Word.family w = 0xD) (hfit : m.index.toNat + Word.n w ≤ 0x1000) :
    m.perform settings pad w = .done (m.after settings pad w) := by
  refine perform_eq_done_iff.mpr ⟨?_, rfl⟩
  rw [obstacle?, Instruction.ofWord_eq_of_spells (.draw hw)]
  exact if_pos hfit

theorem frame_after_draw (hw : Word.family w = 0xD) :
    (m.after settings pad w).frame = (m.stamped (Word.x w) (Word.y w) (Word.n w)).1 := by
  rw [after, Instruction.ofWord_eq_of_spells (.draw hw)]
  rfl

theorem index_after_draw (hw : Word.family w = 0xD) :
    (m.after settings pad w).index = m.index := by
  rw [after, Instruction.ofWord_eq_of_spells (.draw hw)]
  rfl

theorem registers_after_draw (hw : Word.family w = 0xD) :
    (m.after settings pad w).registers =
      m.registers.set flag (Operator.bit (m.stamped (Word.x w) (Word.y w) (Word.n w)).2) := by
  rw [after, Instruction.ofWord_eq_of_spells (.draw hw)]
  rfl

theorem flag_after_draw (hw : Word.family w = 0xD) :
    (m.after settings pad w).registers.get flag =
      Operator.bit (m.stamped (Word.x w) (Word.y w) (Word.n w)).2 := by
  rw [registers_after_draw hw, Registers.get_set, if_pos rfl]

theorem bit_eq_one_iff (b : Bool) : Operator.bit b = 1 ↔ b = true := by
  cases b <;> decide

theorem bit_eq_zero_iff (b : Bool) : Operator.bit b = 0 ↔ b = false := by
  cases b <;> decide

/-- A `Dxyn` raises the flag if two bits of its sprite land on one cell of the grid, or if one
lands on a cell that was lit, and lowers it otherwise. It flips the cells of the grid that an odd
number of bits land on. The corner is told by `Vx` and `Vy` before, even if one of them is the
flag. In what order the bits are drawn makes no difference. -/
theorem flag_tells_collision (settings : Settings) (pad : HexPad) (m : Machine) (w : UInt16)
    (hw : Word.family w = 0xD) (hfit : m.index.toNat + Word.n w ≤ 0x1000) :
    let x := Word.x w
    let y := Word.y w
    let height := Word.n w
    let grid := m.frame.cols * m.frame.rows
    let Collides := ∃ c < grid,
      2 ≤ m.hits x y height c ∨ m.hits x y height c = 1 ∧ m.frame.lit c = true
    ∃ m', m.perform settings pad w = .done m' ∧
      (m'.registers.get flag = 1 ↔ Collides) ∧ (m'.registers.get flag = 0 ↔ ¬ Collides) ∧
      m'.frame.cols = m.frame.cols ∧ m'.frame.rows = m.frame.rows ∧
      (∀ c < grid, m'.frame.lit c = (m.frame.lit c ^^ decide (Odd (m.hits x y height c)))) ∧
      ∀ order : List (Nat × Nat), order.Perm (m.bits height) →
        (m.frame.stamp (order.map (m.pixelOf x y))).1 = m'.frame ∧
          Operator.bit (m.frame.stamp (order.map (m.pixelOf x y))).2 = m'.registers.get flag := by
  intro x y height grid Collides
  have hcollides : (m.stamped x y height).2 = true ↔ Collides := m.stamped_snd_iff x y height
  refine ⟨_, perform_draw hw hfit, ?_, ?_, ?_, ?_, ?_, ?_⟩
  · rw [flag_after_draw hw, bit_eq_one_iff]
    exact hcollides
  · rw [flag_after_draw hw, bit_eq_zero_iff, ← Bool.not_eq_true, not_iff_not]
    exact hcollides
  · rw [frame_after_draw hw]
    exact Frame.cols_stamp _ _
  · rw [frame_after_draw hw]
    exact Frame.rows_stamp _ _
  · intro c hc
    rw [frame_after_draw hw]
    exact m.lit_stamped x y height hc
  · intro order horder
    have hstamp : m.frame.stamp (order.map (m.pixelOf x y)) = m.stamped x y height := by
      rw [stamped_eq, toggled]
      exact Frame.stamp_perm (horder.map _)
    rw [hstamp, frame_after_draw hw, flag_after_draw hw]
    exact ⟨rfl, rfl⟩

/-- The bits of a full row. -/
theorem bits_of_full_row (h : m.memory.byteAt m.index.toNat = 0xFF) :
    m.bits 1 = (List.range 8).map (0, ·) := by
  rw [bits_eq_flatMap, List.range_one, List.flatMap_singleton, Nat.add_zero, h]
  rfl

/-- A memory that begins with a full row. -/
theorem byteAt_full_row : (Memory.zero.overwrite 0 [0xFF]).byteAt 0 = 0xFF := by
  rw [Memory.byteAt_overwrite, if_pos (by decide)]
  rfl

/-- A machine on a narrow frame, with a full row at its index. -/
def narrow : Machine :=
  { State.initial (.blank 4 1) with
    memory := Memory.zero.overwrite 0 [0xFF]
    random := .ofSeed 0 }

/-- On a frame of one row and four columns a full row reaches past the edge, comes back and meets
itself: the flag is raised though no cell was lit, and the cells in question stay unlit.
The corner is told by the flag here. -/
theorem flag_tells_collision_narrow :
    ∃ m', narrow.perform {} .released 0xDFF1 = .done m' ∧ m'.registers.get flag = 1 ∧
      m'.frame.lit 0 = true ∧ m'.frame.lit 1 = false := by
  have hbits : narrow.bits 1 = (List.range 8).map (0, ·) := bits_of_full_row byteAt_full_row
  have hhits : ∀ c, narrow.hits 0xF 0xF 1 c = [0, 1, 2, 3, 4, 1, 2, 3].count c := by
    intro c
    rw [hits, hbits]
    rfl
  obtain ⟨m', hp, hflag, -, -, -, hlit, -⟩ :=
    flag_tells_collision {} .released narrow 0xDFF1 (by decide) (by decide)
  have hhits0 : narrow.hits (Word.x 0xDFF1) (Word.y 0xDFF1) (Word.n 0xDFF1) 0 = 1 := hhits 0
  have hhits1 : narrow.hits (Word.x 0xDFF1) (Word.y 0xDFF1) (Word.n 0xDFF1) 1 = 2 := hhits 1
  refine ⟨m', hp, hflag.mpr ⟨1, by decide, .inl (Nat.le_of_eq hhits1.symm)⟩, ?_, ?_⟩
  · rw [hlit 0 (by decide), hhits0]
    rfl
  · rw [hlit 1 (by decide), hhits1]
    rfl

end Machine

end ChipEight
