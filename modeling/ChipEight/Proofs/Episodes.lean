import ChipEight.Proofs.Buzzing

/-!
# Episodes of the tone

A buzzer may be asked for the tone while it plays, and for silence while it is silent. Neither is
news. So the tone comes in episodes: one begins when the tone is asked for in silence, at the
frequency that is asked for then, and it goes on until silence is asked for. A buzzer is left with
the frequency of the last episode, whatever was asked for during it.

* `sounds_concat`: what the last signal says about the tone
* `exists_begunAt_iff`: an episode began if the tone was ever asked for
* `playing_iff_sounds`, `phaseStep_of_begunAt`, `amplitude_receiveAll`: what a history of signals
  leaves on the buzzer
* `receiveAll_news`: signals that are no news can be left out
* `plays_last_episode`: all of it, for a new buzzer
-/

namespace ChipEight

/-! ## Histories of signals -/

namespace Signal

variable {signals : List Signal} {signal : Signal} {frequency : UInt32}

/-- The loudness that a signal sets, if it sets one. -/
def loudness? : Signal → Option Float32
  | .gain loudness => some loudness
  | _ => none

/-- Whether the tone was asked for, and silence was not asked for since. -/
def Sounds (signals : List Signal) : Prop :=
  ∃ before frequency after, signals = before ++ .toneOn frequency :: after ∧ .toneOff ∉ after

/-- Whether the last episode began at a frequency: it was asked for in silence, and ever since the
tone was asked for only while it was on. -/
def BegunAt (signals : List Signal) (frequency : UInt32) : Prop :=
  ∃ before after, signals = before ++ .toneOn frequency :: after ∧ ¬ Sounds before ∧
    ∀ mid other rest, after = mid ++ .toneOn other :: rest →
      Sounds (before ++ .toneOn frequency :: mid)

/-- The signals that are news to one who knows whether the tone is on: all but those that ask for
the tone while it is on, and for silence while it is off. -/
def news : Bool → List Signal → List Signal
  | _, [] => []
  | on, .toneOn frequency :: rest =>
    if on then news true rest else .toneOn frequency :: news true rest
  | on, .toneOff :: rest => if on then .toneOff :: news false rest else news false rest
  | on, signal :: rest => signal :: news on rest

theorem not_sounds_nil : ¬ Sounds [] := by
  rintro ⟨before, frequency, after, h, -⟩
  simp at h

/-- Only the last signal of the tone counts. -/
theorem sounds_concat (signals : List Signal) (signal : Signal) :
    Sounds (signals ++ [signal]) ↔
      if signal.isTone then signal.isToneOn = true else Sounds signals := by
  have hkeeps : signal.isToneOn = false → Sounds (signals ++ [signal]) →
      signal ≠ .toneOff ∧ Sounds signals := by
    rintro hsignal ⟨before, frequency, after, h, hoff⟩
    rcases List.eq_nil_or_concat after with rfl | ⟨after, last, rfl⟩
    · obtain ⟨-, hlast⟩ := List.append_inj' h rfl
      obtain rfl : signal = .toneOn frequency := List.head_eq_of_cons_eq hlast
      cases hsignal
    · rw [List.concat_eq_append, ← List.cons_append, ← List.append_assoc] at h
      obtain ⟨rfl, hlast⟩ := List.append_inj' h rfl
      obtain rfl : signal = last := List.head_eq_of_cons_eq hlast
      simp only [List.concat_eq_append, List.mem_append, List.mem_singleton, not_or] at hoff
      exact ⟨Ne.symm hoff.2, before, frequency, after, rfl, hoff.1⟩
  have hkept : signal ≠ .toneOff → Sounds signals → Sounds (signals ++ [signal]) := by
    rintro hne ⟨before, frequency, after, rfl, hoff⟩
    refine ⟨before, frequency, after ++ [signal], by simp, ?_⟩
    simp [hoff, Ne.symm hne]
  cases signal with
  | toneOn frequency => exact iff_of_true ⟨signals, frequency, [], rfl, nofun⟩ rfl
  | toneOff => exact iff_of_false (fun h => (hkeeps rfl h).1 rfl) Bool.false_ne_true
  | gain | picture => exact ⟨fun h => (hkeeps rfl h).2, hkept nofun⟩

/-- A tone that is asked for in silence begins an episode. -/
theorem begunAt_concat_of_not_sounds (h : ¬ Sounds signals) (frequency : UInt32) :
    BegunAt (signals ++ [.toneOn frequency]) frequency :=
  ⟨signals, [], rfl, h, fun mid _ _ hmid => absurd hmid (by simp)⟩

/-- No other signal does. -/
theorem BegunAt.concat (h : BegunAt signals frequency)
    (hsignal : signal.isToneOn = true → Sounds signals) :
    BegunAt (signals ++ [signal]) frequency := by
  obtain ⟨before, after, rfl, hsilent, hon⟩ := h
  refine ⟨before, after ++ [signal], by simp, hsilent, fun mid other rest h => ?_⟩
  rcases List.eq_nil_or_concat rest with rfl | ⟨rest, last, rfl⟩
  · obtain ⟨rfl, hlast⟩ := List.append_inj' h rfl
    obtain rfl : signal = .toneOn other := List.head_eq_of_cons_eq hlast
    exact hsignal rfl
  · rw [List.concat_eq_append, ← List.cons_append, ← List.append_assoc] at h
    obtain ⟨hafter, -⟩ := List.append_inj' h rfl
    exact hon mid other rest hafter

theorem exists_begunAt_iff (signals : List Signal) :
    (∃ frequency, BegunAt signals frequency) ↔ ∃ frequency, .toneOn frequency ∈ signals := by
  constructor
  · rintro ⟨frequency, before, after, rfl, -⟩
    exact ⟨frequency, by simp⟩
  · -- from the last signal on: either it begins an episode, or the one before it goes on
    induction signals using List.reverseRecOn with
    | nil =>
      rintro ⟨frequency, h⟩
      cases h
    | append_singleton signals signal ih =>
      rintro ⟨frequency, h⟩
      by_cases hbegins : signal.isToneOn = true ∧ ¬ Sounds signals
      · cases signal with
        | toneOn other => exact ⟨other, begunAt_concat_of_not_sounds hbegins.2 other⟩
        | _ => cases hbegins.1
      · have hon : signal.isToneOn = true → Sounds signals :=
          fun htone => not_not.mp (not_and.mp hbegins htone)
        have hbefore : ∃ frequency, .toneOn frequency ∈ signals := by
          rcases List.mem_append.mp h with h | h
          · exact ⟨frequency, h⟩
          · obtain rfl := List.mem_singleton.mp h
            obtain ⟨before, other, after, rfl, -⟩ := hon rfl
            exact ⟨other, by simp⟩
        obtain ⟨other, hother⟩ := ih hbefore
        exact ⟨other, hother.concat hon⟩

end Signal

/-! ## What they leave on a buzzer -/

namespace Buzzer

open Signal

variable {b : Buzzer} {signals : List Signal} {frequency : UInt32}

theorem playing_iff_sounds (signals : List Signal) :
    (new.receiveAll signals).playing = true ↔ Sounds signals := by
  induction signals using List.reverseRecOn with
  | nil => exact iff_of_false Bool.false_ne_true not_sounds_nil
  | append_singleton signals signal ih =>
    rw [receiveAll_append, sounds_concat, ← ih]
    show ((new.receiveAll signals).receive signal).playing = true ↔ _
    rw [playing_receive]
    cases signal.isTone <;> rfl

/-- A buzzer keeps its step as long as the tone is asked for only while it plays. -/
theorem phaseStep_receiveAll_of_playing
    (h : ∀ before frequency after, signals = before ++ .toneOn frequency :: after →
      (b.receiveAll before).playing = true) :
    (b.receiveAll signals).wave.phaseStep = b.wave.phaseStep := by
  induction signals using List.reverseRecOn with
  | nil => rfl
  | append_singleton signals signal ih =>
    have hbefore : (b.receiveAll signals).wave.phaseStep = b.wave.phaseStep :=
      ih fun before frequency after hsignals =>
        h before frequency (after ++ [signal]) (by simp [hsignals])
    rw [receiveAll_append, ← hbefore]
    refine phaseStep_receive signal fun htone => ?_
    cases signal with
    | toneOn frequency => exact h signals frequency [] rfl
    | _ => cases htone

theorem phaseStep_of_begunAt (h : BegunAt signals frequency) :
    (new.receiveAll signals).wave.phaseStep = phaseStep frequency := by
  obtain ⟨before, after, rfl, hsilent, hon⟩ := h
  have hbefore : (new.receiveAll before).playing = false :=
    Bool.eq_false_iff.mpr fun hplaying => hsilent ((playing_iff_sounds before).mp hplaying)
  let begun := (new.receiveAll before).start frequency
  have hkept : (begun.receiveAll after).wave.phaseStep = begun.wave.phaseStep := by
    refine phaseStep_receiveAll_of_playing fun mid other rest hafter => ?_
    have hplaying := (playing_iff_sounds _).mpr (hon mid other rest hafter)
    rw [receiveAll_append] at hplaying
    exact hplaying
  rw [receiveAll_append]
  show (begun.receiveAll after).wave.phaseStep = _
  rw [hkept]
  show ((new.receiveAll before).start frequency).wave.phaseStep = _
  rw [start_of_silent hbefore]
  rfl

theorem amplitude_receive (b : Buzzer) (signal : Signal) :
    (b.receive signal).wave.amplitude =
      (signal.loudness?.map amplitude).getD b.wave.amplitude := by
  cases signal with
  | toneOn frequency =>
    show (b.start frequency).wave.amplitude = b.wave.amplitude
    cases h : b.playing with
    | true => rw [start_of_playing h]
    | false => rw [start_of_silent h]; rfl
  | toneOff =>
    show b.stop.wave.amplitude = b.wave.amplitude
    cases h : b.playing with
    | true => rw [stop_of_playing h]; rfl
    | false => rw [stop_of_silent h]
  | gain | picture => rfl

/-- The last loudness that was set is the one that counts. -/
theorem amplitude_receiveAll (b : Buzzer) (signals : List Signal) :
    (b.receiveAll signals).wave.amplitude =
      ((signals.filterMap loudness?).getLast?.map amplitude).getD b.wave.amplitude := by
  induction signals generalizing b with
  | nil => rfl
  | cons signal rest ih =>
    show ((b.receive signal).receiveAll rest).wave.amplitude = _
    rw [ih, amplitude_receive, getLast?_filterMap_cons, Option.map_or]
    cases ((rest.filterMap loudness?).getLast?.map amplitude) <;> rfl

/-- A buzzer does not miss what is no news to it. -/
theorem receiveAll_news (b : Buzzer) (signals : List Signal) :
    b.receiveAll (news b.playing signals) = b.receiveAll signals := by
  induction signals generalizing b with
  | nil => rfl
  | cons signal rest ih =>
    have hrest := ih (b.receive signal)
    rw [playing_receive] at hrest
    cases signal with
    | toneOn frequency =>
      show _ = (b.start frequency).receiveAll rest
      cases h : b.playing with
      | true =>
        rw [start_of_playing h, ← ih b, h]
        rfl
      | false => exact hrest
    | toneOff =>
      show _ = b.stop.receiveAll rest
      cases h : b.playing with
      | true => exact hrest
      | false =>
        rw [stop_of_silent h, ← ih b, h]
        rfl
    | gain | picture => exact hrest

/-- A new buzzer after any signals.

* It plays, and so does its speaker, if the tone was asked for and silence was not asked for since.
* Its step is that of the frequency that the last episode began at. It is 0 if the tone was never
  asked for, and only then was there no episode.
* Its amplitude is that of the last loudness that was set, or a quarter if none was.
* It is the same buzzer without the signals that were no news. -/
theorem plays_last_episode (signals : List Signal) :
    let b := Buzzer.new.receiveAll signals
    (b.playing = true ↔ Sounds signals) ∧
    (b.speaker.status = .playing ↔ Sounds signals) ∧
    (∀ frequency, BegunAt signals frequency →
      b.wave.phaseStep = frequency.toFloat32 / (44100 : UInt32).toFloat32) ∧
    ((∃ frequency, BegunAt signals frequency) ↔ ∃ frequency, .toneOn frequency ∈ signals) ∧
    ((∀ frequency, .toneOn frequency ∉ signals) → b.wave.phaseStep = 0) ∧
    b.wave.amplitude =
      ((signals.filterMap loudness?).getLast?.map amplitude).getD (.ofFloat32 0.25) ∧
    Buzzer.new.receiveAll (news false signals) = b := by
  intro b
  have hplaying : b.playing = true ↔ Sounds signals := playing_iff_sounds signals
  refine ⟨hplaying, (status_receiveAll status_new signals).trans hplaying,
    fun frequency h => phaseStep_of_begunAt h, exists_begunAt_iff signals, fun hnever => ?_,
    amplitude_receiveAll new signals, receiveAll_news new signals⟩
  refine phaseStep_receiveAll_of_playing fun before frequency after hsignals => ?_
  exact absurd (by simp [hsignals]) (hnever frequency)

/-- The tone is asked for at 440, ended twice, asked for at 660, and then at 880 while it is on. -/
theorem plays_last_episode_twice :
    let signals : List Signal :=
      [.toneOn 440, .toneOff, .toneOff, .gain 0.5, .toneOn 660, .toneOn 880]
    let b := Buzzer.new.receiveAll signals
    b.playing = true ∧ b.speaker.status = .playing ∧
      b.wave.phaseStep = (660 : UInt32).toFloat32 / (44100 : UInt32).toFloat32 ∧
      b.wave.amplitude = amplitude 0.5 ∧
      Buzzer.new.receiveAll [.toneOn 440, .toneOff, .gain 0.5, .toneOn 660] = b := by
  intro signals b
  obtain ⟨hplaying, hstatus, hstep, -, -, hamplitude, hnews⟩ := plays_last_episode signals
  have hsounds : Sounds signals :=
    ⟨[.toneOn 440, .toneOff, .toneOff, .gain 0.5, .toneOn 660], 880, [], rfl, nofun⟩
  have hsilent : ¬ Sounds [.toneOn 440, .toneOff, .toneOff, .gain 0.5] := by
    rw [show ([.toneOn 440, .toneOff, .toneOff, .gain 0.5] : List Signal) =
      [.toneOn 440, .toneOff] ++ [.toneOff] ++ [.gain 0.5] from rfl, sounds_concat, sounds_concat]
    exact Bool.false_ne_true
  have hbegun : BegunAt signals 660 :=
    (begunAt_concat_of_not_sounds hsilent 660).concat fun _ =>
      ⟨[.toneOn 440, .toneOff, .toneOff, .gain 0.5], 660, [], rfl, nofun⟩
  exact ⟨hplaying.mpr hsounds, hstatus.mpr hsounds, hstep 660 hbegun, hamplitude, hnews⟩

end Buzzer

end ChipEight
