import ChipEight.Console.Journal
import ChipEight.Sound.SquareWave

/-!
# The buzzer

A buzzer plays a square wave on a speaker while the tone is on. It keeps a note of whether it
plays: switching it on while it plays, or off while it is silent, does nothing. So the frequency
that it plays is the one that the tone was last begun with.
-/

namespace ChipEight

/-- What a speaker is doing. -/
inductive Speaker.Status where
  | playing
  | paused
deriving DecidableEq

/-- A device that samples a wave while it plays. -/
structure Speaker where
  status : Speaker.Status
  wave : SquareWave

namespace Speaker

/-- A speaker that was just opened is paused. -/
def opened (wave : SquareWave) : Speaker := ⟨.paused, wave⟩

/-- Begins to play, or goes on. -/
def resume (s : Speaker) : Speaker := { s with status := .playing }

/-- Stops playing until it is resumed. -/
def pause (s : Speaker) : Speaker := { s with status := .paused }

end Speaker

/-- A speaker, and whether the tone is on. -/
structure Buzzer where
  playing : Bool
  speaker : Speaker

namespace Buzzer

/-- The wave that the buzzer plays when the tone is on. -/
def wave (b : Buzzer) : SquareWave := b.speaker.wave

/-- Samples in a second. -/
def sampleRate : Nat := 44100

/-- The amplitude at full volume. -/
def fullAmplitude : Float32 := 0.25

/-- A new buzzer is silent and at full volume. -/
def new : Buzzer where
  playing := false
  speaker := .opened ⟨0, 0, .ofFloat32 fullAmplitude⟩

/-- The note on opening a buzzer. -/
def openingNotes : List Note := [.soundOpened sampleRate]

/-- The part of a period that one sample takes at a frequency. -/
def phaseStep (frequency : UInt32) : Float32 :=
  frequency.toFloat32 / (UInt32.ofNat sampleRate).toFloat32

/-- Holds a loudness between 0 and 1. What is not a number counts as 0. -/
def hold (loudness : Float32) : Float32 :=
  if 0 < loudness then (if loudness < 1 then loudness else 1) else 0

/-- The amplitude at a loudness. -/
def amplitude (loudness : Float32) : Amplitude := .ofFloat32 (hold loudness * fullAmplitude)

/-- Switches the tone on. -/
def start (b : Buzzer) (frequency : UInt32) : Buzzer :=
  if b.playing then b
  else
    let wave := { b.wave with phaseStep := phaseStep frequency }
    { playing := true, speaker := { b.speaker with wave }.resume }

/-- Switches the tone off. -/
def stop (b : Buzzer) : Buzzer :=
  if b.playing then { playing := false, speaker := b.speaker.pause } else b

/-- Sets the loudness. Whether the buzzer plays does not change. -/
def setLoudness (b : Buzzer) (loudness : Float32) : Buzzer :=
  { b with speaker.wave.amplitude := amplitude loudness }

/-- Obeys a signal. Pictures are not for the buzzer. -/
def receive (b : Buzzer) : Signal → Buzzer
  | .toneOn frequency => b.start frequency
  | .toneOff => b.stop
  | .gain loudness => b.setLoudness loudness
  | .picture _ => b

/-- The buzzer after signals. -/
def receiveAll (b : Buzzer) (signals : List Signal) : Buzzer := signals.foldl receive b

theorem start_of_playing {b : Buzzer} (h : b.playing = true) (frequency : UInt32) :
    b.start frequency = b :=
  if_pos h

theorem start_of_silent {b : Buzzer} (h : b.playing = false) (frequency : UInt32) :
    b.start frequency =
      ⟨true, .playing, { b.wave with phaseStep := phaseStep frequency }⟩ :=
  if_neg (by simp [h])

theorem stop_of_playing {b : Buzzer} (h : b.playing = true) :
    b.stop = ⟨false, .paused, b.wave⟩ :=
  if_pos h

theorem stop_of_silent {b : Buzzer} (h : b.playing = false) : b.stop = b :=
  if_neg (by simp [h])

theorem receiveAll_append (b : Buzzer) (before after : List Signal) :
    b.receiveAll (before ++ after) = (b.receiveAll before).receiveAll after :=
  List.foldl_append

end Buzzer

end ChipEight
