import Mathlib.Algebra.GroupWithZero.Nat
import ChipEight.Sound.Buzzer

/-!
# Samples and how they are cut

A device asks for samples in buffers of its own lengths, and in between the amplitude may be set.
Neither disturbs the wave: the phase goes on from sample to sample as if all of them had been asked
for at once. The phase alone carries over, so the sign of each sample is that of the uncut wave, and
its size is the amplitude that was set last.

* `waves_add`, `samples_eq_map`: the waves that samples are taken from
* `map_phase_sampled`, `map_amplitude_sampled`: what turns leave alone and what they set
* `flatten_fill`, `turnedAll_buffers`: buffers one after the other are one buffer
* `cuts_do_not_show`: all of it, for every wave
-/

namespace ChipEight

namespace SquareWave

/-! ## The waves that samples are taken from -/

/-- The wave with another amplitude. -/
def withAmplitude (w : SquareWave) (amplitude : Amplitude) : SquareWave := { w with amplitude }

/-- The wave at each of the next samples. -/
def waves : Nat → SquareWave → List SquareWave
  | 0, _ => []
  | n + 1, w => w :: waves n w.advance

variable {w : SquareWave}

theorem samples_eq_map (n : Nat) (w : SquareWave) : samples n w = (waves n w).map sample := by
  induction n generalizing w with
  | zero => rfl
  | succ n ih => simp [samples, waves, ih]

theorem waves_add (j k : Nat) (w : SquareWave) :
    waves (j + k) w = waves j w ++ waves k (advanceBy j w) := by
  induction j generalizing w with
  | zero => simp [waves, advanceBy]
  | succ j ih => rw [Nat.succ_add, waves, waves, advanceBy, ih, List.cons_append]

theorem amplitude_advanceBy (n : Nat) (w : SquareWave) :
    (advanceBy n w).amplitude = w.amplitude := by
  induction n generalizing w with
  | zero => rfl
  | succ n ih => exact ih w.advance

/-- A wave moves on in the same way at any amplitude. -/
theorem advanceBy_withAmplitude (n : Nat) (w : SquareWave) (a : Amplitude) :
    advanceBy n (w.withAmplitude a) = (advanceBy n w).withAmplitude a := by
  induction n generalizing w with
  | zero => rfl
  | succ n ih => exact ih w.advance

theorem map_phase_waves_withAmplitude (n : Nat) (w : SquareWave) (a : Amplitude) :
    (waves n (w.withAmplitude a)).map phase = (waves n w).map phase := by
  induction n generalizing w with
  | zero => rfl
  | succ n ih => exact congrArg (w.phase :: ·) (ih w.advance)

theorem map_amplitude_waves (n : Nat) (w : SquareWave) :
    (waves n w).map amplitude = List.replicate n w.amplitude := by
  induction n generalizing w with
  | zero => rfl
  | succ n ih => exact congrArg (w.amplitude :: ·) (ih w.advance)

/-! ## Turns -/

/-- What can happen to a wave that is sampled. -/
inductive Turn where
  /-- a buffer of some length is filled from it -/
  | buffer (length : Nat)
  /-- its amplitude is set -/
  | level (amplitude : Amplitude)

namespace Turn

/-- How many samples a turn asks for. -/
def length : Turn → Nat
  | .buffer n => n
  | .level _ => 0

/-- The amplitude that a turn sets, if it sets one. -/
def level? : Turn → Option Amplitude
  | .buffer _ => none
  | .level a => some a

/-- The amplitude that is in force at each of the samples that turns ask for. -/
def levels : Amplitude → List Turn → List Amplitude
  | _, [] => []
  | a, .buffer n :: rest => List.replicate n a ++ levels a rest
  | _, .level b :: rest => levels b rest

end Turn

/-- The wave after a turn. -/
def turned (w : SquareWave) : Turn → SquareWave
  | .buffer n => advanceBy n w
  | .level a => w.withAmplitude a

/-- The samples that a turn puts out. -/
def putOut (w : SquareWave) : Turn → List Amplitude
  | .buffer n => samples n w
  | .level _ => []

/-- The waves that a turn takes samples from. -/
def takenFrom (w : SquareWave) : Turn → List SquareWave
  | .buffer n => waves n w
  | .level _ => []

/-- The wave after turns. -/
def turnedAll (w : SquareWave) (turns : List Turn) : SquareWave := turns.foldl turned w

/-- The samples that turns put out, one after the other. -/
def heard : List Turn → SquareWave → List Amplitude
  | [], _ => []
  | turn :: rest, w => w.putOut turn ++ heard rest (w.turned turn)

/-- The waves that turns take their samples from, one after the other. -/
def sampled : List Turn → SquareWave → List SquareWave
  | [], _ => []
  | turn :: rest, w => w.takenFrom turn ++ sampled rest (w.turned turn)

/-- How many samples turns ask for. -/
def count (turns : List Turn) : Nat := (turns.map Turn.length).sum

@[simp] theorem count_buffer (n : Nat) (turns : List Turn) :
    count (.buffer n :: turns) = n + count turns := List.sum_cons

@[simp] theorem count_level (a : Amplitude) (turns : List Turn) :
    count (.level a :: turns) = count turns := List.sum_cons.trans (Nat.zero_add _)

theorem heard_eq_map (turns : List Turn) (w : SquareWave) :
    heard turns w = (sampled turns w).map sample := by
  induction turns generalizing w with
  | nil => rfl
  | cons turn rest ih =>
    rw [heard, sampled, List.map_append, ih]
    cases turn with
    | buffer n => rw [putOut, takenFrom, samples_eq_map]
    | level a => rfl

/-- The phases are those of a wave that is sampled all at once and whose amplitude is left alone. -/
theorem map_phase_sampled (turns : List Turn) (w : SquareWave) :
    (sampled turns w).map phase = (waves (count turns) w).map phase := by
  induction turns generalizing w with
  | nil => rfl
  | cons turn rest ih =>
    rw [sampled, List.map_append, ih]
    cases turn with
    | buffer n =>
      rw [count_buffer, waves_add, List.map_append]
      rfl
    | level a =>
      rw [count_level]
      exact map_phase_waves_withAmplitude (count rest) w a

theorem map_amplitude_sampled (turns : List Turn) (w : SquareWave) :
    (sampled turns w).map amplitude = Turn.levels w.amplitude turns := by
  induction turns generalizing w with
  | nil => rfl
  | cons turn rest ih =>
    rw [sampled, List.map_append, ih]
    cases turn with
    | buffer n =>
      show (waves n w).map amplitude ++ Turn.levels (advanceBy n w).amplitude rest = _
      rw [map_amplitude_waves, amplitude_advanceBy]
      rfl
    | level a => rfl

/-- A sample has the sign of its phase and the size of its amplitude. -/
theorem map_sample_eq (waves : List SquareWave) :
    waves.map sample =
      List.zipWith (fun phase level => if phase < 0.5 then level else level.negate)
        (waves.map phase) (waves.map amplitude) := by
  rw [List.zipWith_map, List.zipWith_self]
  refine List.map_congr_left fun v _ => ?_
  simp [sample, isHigh]

/-- Turns leave a wave where it would be anyway, at the amplitude that was set last. -/
theorem turnedAll_eq (turns : List Turn) (w : SquareWave) :
    w.turnedAll turns =
      (advanceBy (count turns) w).withAmplitude
        ((turns.filterMap Turn.level?).getLast?.getD w.amplitude) := by
  induction turns generalizing w with
  | nil => rfl
  | cons turn rest ih =>
    refine (ih (w.turned turn)).trans ?_
    cases turn with
    | buffer n =>
      rw [count_buffer, advanceBy_add, turned, amplitude_advanceBy]
      rfl
    | level a =>
      have hlast : ((Turn.level a :: rest).filterMap Turn.level?).getLast? =
          some ((rest.filterMap Turn.level?).getLast?.getD a) := List.getLast?_cons
      rw [count_level, hlast, turned, advanceBy_withAmplitude]
      rfl

/-! ## Buffers -/

theorem flatten_fill (lengths : List Nat) (w : SquareWave) :
    (fill lengths w).flatten = samples lengths.sum w := by
  induction lengths generalizing w with
  | nil => rfl
  | cons n rest ih => rw [fill, List.flatten_cons, ih, List.sum_cons, samples_add]

theorem turnedAll_buffers (lengths : List Nat) (w : SquareWave) :
    w.turnedAll (lengths.map .buffer) = advanceBy lengths.sum w := by
  induction lengths generalizing w with
  | nil => rfl
  | cons n rest ih => exact (ih (advanceBy n w)).trans (by rw [List.sum_cons, advanceBy_add])

/-- How a wave is cut into buffers does not show, nor where its amplitude is set.

* Buffers filled one after the other, empty ones among them, hold together the samples of one buffer
  of the summed length, and they leave the wave as that one does.
* If the amplitude is set between them, the phases at the samples are still those of one buffer of
  the summed length and no change. Each sample is the amplitude in force or its negation, as its
  phase is in the first half of the period or not.
* The loudness of a buzzer is set in this way. -/
theorem cuts_do_not_show (w : SquareWave) :
    (∀ lengths, (fill lengths w).flatten = samples lengths.sum w ∧
      w.turnedAll (lengths.map .buffer) = advanceBy lengths.sum w) ∧
    (∀ turns,
      (sampled turns w).map phase = (waves (count turns) w).map phase ∧
      heard turns w =
        List.zipWith (fun phase level => if phase < 0.5 then level else level.negate)
          ((waves (count turns) w).map phase) (Turn.levels w.amplitude turns) ∧
      w.turnedAll turns = { advanceBy (count turns) w with
        amplitude := (turns.filterMap Turn.level?).getLast?.getD w.amplitude }) ∧
    ∀ (b : Buzzer) (loudness : Float32),
      (b.setLoudness loudness).wave = b.wave.turned (.level (Buzzer.amplitude loudness)) := by
  refine ⟨fun lengths => ⟨flatten_fill lengths w, turnedAll_buffers lengths w⟩, fun turns => ?_,
    fun b loudness => rfl⟩
  refine ⟨map_phase_sampled turns w, ?_, turnedAll_eq turns w⟩
  rw [heard_eq_map, map_sample_eq, map_phase_sampled, map_amplitude_sampled]

end SquareWave

end ChipEight
