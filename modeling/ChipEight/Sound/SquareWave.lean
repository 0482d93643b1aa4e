/-!
# Square waves

A wave is two levels, an amplitude and its negation, and a phase that moves through the period of
the wave from 0 to 1. The first half of a period has the one level and the second half the other.

Levels are kept as the bits of single precision numbers, so that a level passes unchanged from the
wave to the samples. The phase is computed with.

`samples_add` says that where a run of samples is cut does not show.
-/

namespace ChipEight

/-- A level of sound, as the bits of a single precision number. -/
structure Amplitude where
  bits : UInt32
deriving DecidableEq

namespace Amplitude

/-- The level of a number. -/
def ofFloat32 (x : Float32) : Amplitude := ⟨x.toBits⟩

/-- The opposite level. -/
def negate (a : Amplitude) : Amplitude := ⟨a.bits ^^^ 0x80000000⟩

end Amplitude

/-- A wave that is being sampled. -/
structure SquareWave where
  /-- how far the phase moves from one sample to the next -/
  phaseStep : Float32
  phase : Float32
  amplitude : Amplitude

namespace SquareWave

/-- What remains of a number without its whole part, with the sign of the number. A zero has that
sign too: of -2.0 and of -0.0 there remains -0.0. -/
def fraction (x : Float32) : Float32 :=
  let rest := x - (if x < 0 then x.ceil else x.floor)
  .ofBits (rest.toBits ||| (x.toBits &&& 0x80000000))

/-- Whether the phase is in the first half of the period. -/
def isHigh (w : SquareWave) : Bool := w.phase < 0.5

/-- The level at the phase. -/
def sample (w : SquareWave) : Amplitude := if w.isHigh then w.amplitude else w.amplitude.negate

/-- The wave one sample later. -/
def advance (w : SquareWave) : SquareWave := { w with phase := fraction (w.phase + w.phaseStep) }

/-- The wave some samples later. -/
def advanceBy : Nat → SquareWave → SquareWave
  | 0, w => w
  | n + 1, w => advanceBy n w.advance

/-- The next samples. -/
def samples : Nat → SquareWave → List Amplitude
  | 0, _ => []
  | n + 1, w => w.sample :: samples n w.advance

/-- Fills buffers of some lengths, one after the other. -/
def fill : List Nat → SquareWave → List (List Amplitude)
  | [], _ => []
  | n :: rest, w => samples n w :: fill rest (advanceBy n w)

theorem advanceBy_add (j k : Nat) (w : SquareWave) :
    advanceBy (j + k) w = advanceBy k (advanceBy j w) := by
  induction j generalizing w with
  | zero => simp [advanceBy]
  | succ j ih => rw [Nat.succ_add, advanceBy, advanceBy, ih]

theorem samples_add (j k : Nat) (w : SquareWave) :
    samples (j + k) w = samples j w ++ samples k (advanceBy j w) := by
  induction j generalizing w with
  | zero => simp [samples, advanceBy]
  | succ j ih => rw [Nat.succ_add, samples, samples, advanceBy, ih, List.cons_append]

end SquareWave

end ChipEight
