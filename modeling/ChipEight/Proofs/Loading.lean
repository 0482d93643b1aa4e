import ChipEight.Proofs.Footprint

/-!
# Loading

An image that is read from a source takes effect as a whole or not at all. How the source is cut
into pieces, and how often it is interrupted, does not show; a source that fails leaves everything
alone, however much it gave before.

* `ofReadings_append`: readings without a failure only put their bytes in front
* `ofReadings_of_failed`, `ofReadings_of_not_failed`: the two ways a source ends
* `load_all_or_nothing`: what loading answers, what it writes and what it leaves alone
-/

namespace ChipEight

/-- The bytes that arrive at a reading. -/
def Reading.piece : Reading → List UInt8
  | .bytes piece => piece
  | .interrupted | .failed _ => []

namespace Image

variable {before source : List Reading}

/-! ## Reading a source -/

/-- Readings without a failure only put their bytes in front of what comes after them. -/
theorem ofReadings_append (h : ∀ reason, .failed reason ∉ before) (after : List Reading) :
    ofReadings (before ++ after) =
      (ofReadings after).map fun bytes => before.flatMap Reading.piece ++ bytes := by
  induction before with
  | nil => cases hafter : ofReadings after <;> simp [hafter, Except.map]
  | cons reading rest ih =>
    have hrest := ih fun reason hmem => h reason (List.mem_cons_of_mem _ hmem)
    cases reading with
    | bytes piece =>
      rw [List.cons_append, ofReadings, hrest]
      cases ofReadings after <;> simp [Except.map, Reading.piece]
    | interrupted => exact hrest
    | failed reason => exact absurd List.mem_cons_self (h reason)

/-- The first failure of a source is its fault. -/
theorem ofReadings_of_failed (h : ∀ reason, .failed reason ∉ before) (reason : String)
    (after : List Reading) :
    ofReadings (before ++ .failed reason :: after) = .error (.imageUnreadable reason) := by
  -- a fault passes through the map, so the bytes in front of it are dropped
  rw [ofReadings_append h]
  rfl

theorem ofReadings_of_not_failed (h : ∀ reason, .failed reason ∉ source) :
    ofReadings source = .ok (source.flatMap Reading.piece) := by
  have hsource := ofReadings_append h []
  rwa [List.append_nil, ofReadings, Except.map, List.append_nil] at hsource

end Image

/-- An image that fits is laid out byte by byte from where programs start. -/
theorem Memory.byteAt_overwrite_programStart {memory : Memory} {image : List UInt8} {j : Nat}
    (hfit : image.length ≤ programCapacity) (hj : j < image.length) :
    (memory.overwrite programStart image).byteAt (programStart + j) = image[j] := by
  have hcapacity : programCapacity = memorySize - programStart := rfl
  exact byteAt_overwrite_of_lt (by omega) hj

namespace Console

/-! ## What loading does -/

/-- Loading takes effect as a whole or not at all, whatever state the console is in. A source that
fails is reported with its reason and changes nothing, and any other loads what it holds, however it
hands that out. An image of more than 3584 bytes is refused with its size. A smaller one is
copied to where programs start, and nothing else changes. -/
theorem load_all_or_nothing (c : Console) :
    (∀ before reason after, (∀ earlier, .failed earlier ∉ before) →
      c.loadFrom (before ++ .failed reason :: after) = ⟨.error (.imageUnreadable reason), c, []⟩) ∧
    (∀ source, (∀ reason, .failed reason ∉ source) →
      c.loadFrom source = c.load (source.flatMap Reading.piece)) ∧
    (∀ image, 3584 < image.length →
      c.load image = ⟨.error (.imageTooLarge image.length 3584), c, []⟩) ∧
    ∀ image, image.length ≤ 3584 →
      ∃ memory, c.load image = ⟨.ok (), { c with machine := { c.machine with memory } }, []⟩ ∧
        (∀ j, (hj : j < image.length) → memory.byteAt (0x200 + j) = image[j]) ∧
        ∀ a, ¬ (0x200 ≤ a ∧ a < 0x200 + image.length) →
          memory.byteAt a = c.machine.memory.byteAt a := by
  refine ⟨?_, ?_, ?_, ?_⟩
  · intro before reason after h
    rw [loadFrom, Image.ofReadings_of_failed h]
  · intro source h
    rw [loadFrom, Image.ofReadings_of_not_failed h]
  · intro image h
    exact load_of_lt h
  · intro image h
    refine ⟨_, load_of_le h, ?_, ?_⟩
    · intro j hj
      exact Memory.byteAt_overwrite_programStart h hj
    · intro a ha
      exact Memory.byteAt_overwrite_of_outside ha

/-- A console that was stopped by a fault. A source that fails late leaves it alone although it gave
more than fits, three bytes in two pieces are loaded, and an image of as many bytes is refused. -/
theorem load_all_or_nothing_in_pieces :
    let c := { Console.new {} with fault := some (.unknownWord 0xFFFF) }
    let excess := List.replicate 4000 0xAA
    (∀ earlier, .failed earlier ∉ [Reading.bytes excess, .interrupted]) ∧
    (∀ reason, .failed reason ∉ [Reading.bytes [0x60, 0x05], .interrupted, .bytes [0x12]]) ∧
    3584 < excess.length ∧ [(0x60 : UInt8), 0x05, 0x12].length ≤ 3584 ∧
    c.loadFrom [.bytes excess, .interrupted, .failed "gone"] =
      ⟨.error (.imageUnreadable "gone"), c, []⟩ ∧
    c.load excess = ⟨.error (.imageTooLarge 4000 3584), c, []⟩ ∧
    ∃ memory,
      c.loadFrom [.bytes [0x60, 0x05], .interrupted, .bytes [0x12]] =
        ⟨.ok (), { c with machine := { c.machine with memory } }, []⟩ ∧
      memory.byteAt 0x202 = 0x12 ∧ memory.byteAt 0x203 = c.machine.memory.byteAt 0x203 := by
  intro c excess
  obtain ⟨hfailed, hpieces, hlarge, hsmall⟩ := load_all_or_nothing c
  have hgone : ∀ earlier, .failed earlier ∉ [Reading.bytes excess, .interrupted] := by
    simp
  have hwhole : ∀ reason,
      .failed reason ∉ [Reading.bytes [0x60, 0x05], .interrupted, .bytes [0x12]] := by
    simp
  have hexcess : excess.length = 4000 := List.length_replicate
  have hover : 3584 < excess.length := by
    rw [hexcess]
    decide
  obtain ⟨memory, hload, hinside, houtside⟩ := hsmall [0x60, 0x05, 0x12] (by decide)
  refine ⟨hgone, hwhole, hover, by decide, hfailed _ "gone" [] hgone, ?_, memory, ?_, ?_, ?_⟩
  · rw [hlarge excess hover, hexcess]
  · exact (hpieces _ hwhole).trans hload
  · exact hinside 2 (by decide)
  · exact houtside 0x203 (by decide)

end Console

end ChipEight
