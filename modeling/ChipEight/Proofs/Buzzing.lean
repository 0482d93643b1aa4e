import Mathlib.Data.List.Induction
import ChipEight.Proofs.SessionFilter
import ChipEight.Proofs.Timers
import ChipEight.Sound.Buzzer

/-!
# The buzzer follows the sound timer

A console tells its buzzer at the end of every tick that succeeds whether the tone sounds, and a
session tells it once more when it is disposed of. Most of that is no news, and the buzzer does not
care: it plays or is silent as it was told last.

* `playing_receiveAll`, `phaseStep_receiveAll`: a buzzer after any signals
* `tones_signals`: the tone signals of a session are those of its successful ticks and of its
  disposal
* `buzzer_follows_timer`: a new buzzer on a session
-/

namespace ChipEight

/-- Whether a signal asks for the tone. -/
def Signal.isToneOn : Signal → Bool
  | .toneOn _ => true
  | _ => false

namespace Buzzer

variable {b : Buzzer}

/-! ## Any signals -/

theorem playing_receive (b : Buzzer) (signal : Signal) :
    (b.receive signal).playing = if signal.isTone then signal.isToneOn else b.playing := by
  cases signal with
  | toneOn frequency =>
    show (b.start frequency).playing = true
    cases h : b.playing with
    | true => rw [start_of_playing h, h]
    | false => rw [start_of_silent h]
  | toneOff =>
    show b.stop.playing = false
    cases h : b.playing with
    | true => rw [stop_of_playing h]
    | false => rw [stop_of_silent h, h]
  | gain | picture => rfl

/-- A buzzer plays if the last tone signal asked for the tone. -/
theorem playing_receiveAll (b : Buzzer) (signals : List Signal) :
    (b.receiveAll signals).playing =
      ((signals.filter Signal.isTone).getLast?.map Signal.isToneOn).getD b.playing := by
  -- from the last signal on, since only the last one of the tone counts
  induction signals using List.reverseRecOn with
  | nil => rfl
  | append_singleton signals signal ih =>
    rw [receiveAll_append, List.filter_append]
    show ((b.receiveAll signals).receive signal).playing = _
    rw [playing_receive]
    cases h : signal.isTone with
    | true => simp [h]
    | false => simp [h, ih]

/-- The speaker plays as long as the buzzer keeps a note of playing. -/
theorem status_receive (h : b.speaker.status = .playing ↔ b.playing = true) (signal : Signal) :
    (b.receive signal).speaker.status = .playing ↔ (b.receive signal).playing = true := by
  cases signal with
  | toneOn frequency =>
    show (b.start frequency).speaker.status = .playing ↔ (b.start frequency).playing = true
    cases hb : b.playing with
    | true => rwa [start_of_playing hb]
    | false => simp [start_of_silent hb]
  | toneOff =>
    show b.stop.speaker.status = .playing ↔ b.stop.playing = true
    cases hb : b.playing with
    | true => simp [stop_of_playing hb]
    | false => rwa [stop_of_silent hb]
  | gain | picture => exact h

theorem status_new : new.speaker.status = .playing ↔ new.playing = true := by
  constructor <;> intro h <;> cases h

theorem status_receiveAll (h : b.speaker.status = .playing ↔ b.playing = true)
    (signals : List Signal) :
    (b.receiveAll signals).speaker.status = .playing ↔ (b.receiveAll signals).playing = true := by
  induction signals generalizing b with
  | nil => exact h
  | cons signal rest ih => exact ih (status_receive h signal)

/-- Only a tone that is asked for in silence changes the step. -/
theorem phaseStep_receive (signal : Signal) (h : signal.isToneOn = true → b.playing = true) :
    (b.receive signal).wave.phaseStep = b.wave.phaseStep := by
  cases signal with
  | toneOn frequency =>
    show (b.start frequency).wave.phaseStep = _
    rw [start_of_playing (h rfl)]
  | toneOff =>
    show b.stop.wave.phaseStep = _
    cases hb : b.playing with
    | true => rw [stop_of_playing hb]; rfl
    | false => rw [stop_of_silent hb]
  | gain | picture => rfl

/-- If the tone is only ever asked for at one frequency, a buzzer has the step of that frequency
from the first time on. -/
theorem phaseStep_receiveAll {frequency : UInt32} {signals : List Signal}
    (hb : b.playing = true → b.wave.phaseStep = phaseStep frequency)
    (hs : ∀ f, .toneOn f ∈ signals → f = frequency) :
    (b.receiveAll signals).wave.phaseStep =
      if signals.any Signal.isToneOn then phaseStep frequency else b.wave.phaseStep := by
  induction signals generalizing b with
  | nil => rfl
  | cons signal rest ih =>
    have hrest : ∀ f, .toneOn f ∈ rest → f = frequency :=
      fun f hf => hs f (List.mem_cons_of_mem _ hf)
    show ((b.receive signal).receiveAll rest).wave.phaseStep = _
    cases signal with
    | toneOn f =>
      obtain rfl := hs f List.mem_cons_self
      have hstep : (b.start f).wave.phaseStep = phaseStep f := by
        cases h : b.playing with
        | true => rw [start_of_playing h, hb h]
        | false => rw [start_of_silent h]; rfl
      show ((b.start f).receiveAll rest).wave.phaseStep = phaseStep f
      rw [ih (fun _ => hstep) hrest, hstep, ite_self]
    | toneOff =>
      have hstep : b.stop.wave.phaseStep = b.wave.phaseStep :=
        phaseStep_receive .toneOff nofun
      have hsilent : b.stop.playing = false := playing_receive b .toneOff
      show (b.stop.receiveAll rest).wave.phaseStep = _
      rw [ih (fun h => absurd (hsilent.symm.trans h) nofun) hrest, hstep]
      rfl
    | gain | picture => exact ih hb hrest

end Buzzer

theorem Console.signals_tick_of_error {c : Console} {cause : Fault}
    (h : c.tick.result = .error cause) : c.tick.signals = [] := by
  rw [tick_eq_report] at h ⊢
  cases hf : c.tick.console.fault with
  | some cause' => rw [report_of_fault hf]
  | none =>
    rw [report_of_no_fault hf] at h
    cases h

namespace Session

variable {s : Session} {event : Event}

/-! ## Sessions -/

/-- The sound timer that a successful tick leaves. -/
def Reply.sounding? (reply : Reply) : Option UInt8 :=
  match reply.answer with
  | some (.ok true) => some reply.session.console.machine.sound
  | _ => none

/-- The sound timers that the successful ticks of a session leave, in order. -/
def soundings (s : Session) : List Event → List UInt8
  | [] => []
  | event :: rest => (s.handle event).sounding?.toList ++ (s.handle event).session.soundings rest

/-- A tick that succeeds signals one tone, by the sound timer that it leaves, and no other event
before the disposal signals any. -/
theorem tones_handle (hs : s.disposed = false) (he : event.isDispose = false) :
    (s.handle event).signals.filter Signal.isTone =
        (s.handle event).sounding?.toList.map
          (fun timer => Console.tone s.console.settings.toneFrequency timer.toNat) ∧
      (s.handle event).session.disposed = false ∧
      (s.handle event).session.console.settings = s.console.settings := by
  cases event with
  | poll now =>
    rw [handle]
    cases hp : s.pace.isDue now with
    | false =>
      rw [poll_of_not_isDue (.inr hp)]
      exact ⟨rfl, hs, rfl⟩
    | true =>
      rw [poll_of_isDue hs hp]
      refine ⟨?_, hs, Console.settings_handle s.console .tick⟩
      unfold Reply.sounding?
      cases hr : s.console.tick.result with
      | ok => exact Console.tones_tick hr
      | error cause =>
        rw [Console.signals_tick_of_error hr]
        rfl
  | keyDown key | keyUp key =>
    cases key with
    | none => exact ⟨rfl, hs, rfl⟩
    | some key =>
      rw [handle, key_of_not_disposed hs]
      exact ⟨rfl, hs, Console.settings_handle s.console _⟩
  | volume percent => exact ⟨rfl, hs, rfl⟩
  | dispose => cases he

/-- After its disposal a session signals no tone, and none of its ticks succeeds. -/
theorem silent_of_disposed (hs : s.disposed = true) (events : List Event) :
    (s.signals events).filter Signal.isTone = [] ∧ s.soundings events = [] := by
  constructor
  · obtain ⟨-, h⟩ := run_of_disposed hs events
    rw [show s.signals events = _ from congrArg Prod.snd h]
    refine List.filter_eq_nil_iff.mpr fun signal hsignal => ?_
    obtain ⟨loudness, rfl⟩ := gain_of_mem_serveAll hsignal
    exact nofun
  · induction events with
    | nil => rfl
    | cons event rest ih =>
      obtain ⟨hsession, hanswer, -⟩ := handle_of_disposed hs event
      have hnone : (s.handle event).sounding? = none := by
        unfold Reply.sounding?
        split
        · next h => exact absurd h hanswer
        · rfl
      rw [soundings, hnone, hsession, ih]
      rfl

/-- The tone signals of a session are those of its successful ticks, and the end of the tone when
it is disposed of. -/
theorem tones_signals (hs : s.disposed = false) (events : List Event) :
    (s.signals events).filter Signal.isTone =
      (s.soundings events).map
          (fun timer => Console.tone s.console.settings.toneFrequency timer.toNat) ++
        if events.any Event.isDispose then [.toneOff] else [] := by
  induction events generalizing s with
  | nil => rfl
  | cons event rest ih =>
    rw [signals, soundings, List.filter_append, List.map_append, List.any_cons]
    cases he : event.isDispose with
    | true =>
      obtain rfl : event = .dispose := by
        cases event with
        | dispose => rfl
        | _ => cases he
      obtain ⟨hsignals, hsoundings⟩ := silent_of_disposed (s := { s with disposed := true }) rfl rest
      rw [handle_dispose hs, hsignals, hsoundings]
      rfl
    | false =>
      obtain ⟨htones, hopen, hsettings⟩ := tones_handle hs he
      rw [htones, ih hopen, hsettings, List.append_assoc, Bool.false_or]

/-- The tone is only ever asked for at the frequency of the settings. -/
theorem eq_of_toneOn_mem (hs : s.disposed = false) {events : List Event} {frequency : UInt32}
    (h : .toneOn frequency ∈ s.signals events) : frequency = s.console.settings.toneFrequency := by
  have hmem : .toneOn frequency ∈ (s.signals events).filter Signal.isTone :=
    List.mem_filter.mpr ⟨h, rfl⟩
  rw [tones_signals hs, List.mem_append] at hmem
  rcases hmem with hmem | hmem
  · obtain ⟨timer, -, htone⟩ := List.mem_map.mp hmem
    unfold Console.tone at htone
    split at htone
    · exact (Signal.toneOn.inj htone).symm
    · cases htone
  · split at hmem
    · cases List.mem_singleton.mp hmem
    · cases hmem

/-- A buzzer on a session plays by the last sound timer that a successful tick left, until the
session is disposed of. -/
theorem playing_receiveAll_signals (hs : s.disposed = false) (b : Buzzer) (events : List Event) :
    (b.receiveAll (s.signals events)).playing =
      if (s.run events).disposed then false
      else ((s.soundings events).getLast?.map fun timer => decide (0 < timer)).getD b.playing := by
  obtain ⟨-, -, hdisposed⟩ := run_of_not_disposed hs events
  have htone : ∀ frequency (timer : UInt8),
      (Console.tone frequency timer.toNat).isToneOn = decide (0 < timer) := by
    intro frequency timer
    unfold Console.tone
    simp only [UInt8.lt_iff_toNat_lt, UInt8.toNat_zero]
    split <;> simp [*, Signal.isToneOn]
  rw [Buzzer.playing_receiveAll, tones_signals hs, hdisposed]
  cases events.any Event.isDispose with
  | true => simp [Signal.isToneOn]
  | false => simp [List.getLast?_map, Option.map_map, Function.comp_def, htone]

/-- A poll whose tick fails signals nothing. -/
theorem signals_poll_of_error {now : Nat} {cause : Fault}
    (h : (s.poll now).answer = some (.error cause)) : (s.poll now).signals = [] := by
  cases hs : s.disposed with
  | true => rw [poll_of_not_isDue (.inl hs)]
  | false =>
    cases hp : s.pace.isDue now with
    | false => rw [poll_of_not_isDue (.inr hp)]
    | true =>
      rw [poll_of_isDue hs hp] at h ⊢
      cases hr : s.console.tick.result with
      | ok =>
        rw [hr] at h
        cases h
      | error cause' => exact Console.signals_tick_of_error hr

/-- A new buzzer on a session follows the sound timer of its console.

* It plays if the session was not disposed of and the last tick that succeeded left something on
  the sound timer, and only then. Its speaker plays exactly when it does.
* Its step is 0 until the tone is asked for, and that of the frequency in the settings ever after.
* Ticks that fail leave it as it is, and changes of volume neither begin nor end the tone.
* After a disposal it is silent for good. -/
theorem buzzer_follows_timer (c : Console) (p : Pace) (events : List Event) :
    let s := start c p
    let t := s.run events
    let b := Buzzer.new.receiveAll (s.signals events)
    (b.playing = true ↔
      t.disposed = false ∧ ∃ timer, (s.soundings events).getLast? = some timer ∧ 0 < timer) ∧
    (b.speaker.status = .playing ↔ b.playing = true) ∧
    b.wave.phaseStep =
      (if (s.signals events).any Signal.isToneOn then
        c.settings.toneFrequency.toFloat32 / (44100 : UInt32).toFloat32
      else 0) ∧
    (∀ now cause, (t.handle (.poll now)).answer = some (.error cause) →
      b.receiveAll (t.handle (.poll now)).signals = b) ∧
    (∀ percent,
      let turned := b.receiveAll (t.handle (.volume percent)).signals
      turned.playing = b.playing ∧ turned.speaker.status = b.speaker.status ∧
        turned.wave.phaseStep = b.wave.phaseStep) ∧
    ∀ before after, events = before ++ .dispose :: after → b.playing = false := by
  intro s t b
  have hopen : s.disposed = false := rfl
  have hplaying : b.playing = _ := playing_receiveAll_signals hopen Buzzer.new events
  refine ⟨?_, Buzzer.status_receiveAll Buzzer.status_new _, ?_, ?_, ?_, ?_⟩
  · rw [hplaying]
    cases t.disposed with
    | true => simp
    | false => cases (s.soundings events).getLast? <;> simp [Buzzer.new]
  · refine Buzzer.phaseStep_receiveAll (fun h => absurd h Bool.false_ne_true) fun f hf => ?_
    exact eq_of_toneOn_mem hopen hf
  · intro now cause h
    rw [handle] at h ⊢
    rw [signals_poll_of_error h]
    rfl
  · intro percent turned
    exact ⟨rfl, rfl, rfl⟩
  · rintro before after rfl
    have hd : t.disposed = true := by
      obtain ⟨-, -, hdisposed⟩ := run_of_not_disposed hopen (before ++ .dispose :: after)
      rw [hdisposed, List.any_append, List.any_cons]
      exact Bool.or_true _
    rw [hplaying]
    exact if_pos hd

/-- A program that sets the sound timer to 9 and then returns from no call, one word in each tick.
The second tick fails, and the buzzer goes on until the session is disposed of. -/
theorem buzzer_follows_timer_astray :
    let p := Console.ofProgram [0xF0, 0x18, 0x00, 0xEE] 1
    let c : Console := { p with
      machine := { p.machine with registers := p.machine.registers.set 0x0 9 } }
    let s := start c (.every 16)
    let events : List Event := [.poll 0, .volume 50]
    let t := s.run events
    let b := Buzzer.new.receiveAll (s.signals events)
    s.soundings events = [8] ∧ b.playing = true ∧ b.speaker.status = .playing ∧
      b.wave.phaseStep = (480 : UInt32).toFloat32 / (44100 : UInt32).toFloat32 ∧
      (t.handle (.poll 16)).answer = some (.error .emptyCallStack) ∧
      b.receiveAll (t.handle (.poll 16)).signals = b ∧
      (Buzzer.new.receiveAll (s.signals (events ++ [.dispose]))).playing = false := by
  intro p c s events t b
  let next := c.machine.after c.settings c.pad 0xF018
  let d := c.finish (.done next)
  have hm : c.machine.memory = Memory.zero.overwrite programStart [0xF0, 0x18, 0x00, 0xEE] := rfl
  have hf : c.machine.fetch = .ok 0xF018 :=
    Machine.fetch_of_image (k := 0) hm rfl (by decide) (by decide)
  have hm' : next.memory = c.machine.memory := Machine.memory_after (i := .setSound 0x0) rfl
  have hstill : d.machine.memory = Memory.zero.overwrite programStart [0xF0, 0x18, 0x00, 0xEE] :=
    hm'.trans hm
  have hf' : d.machine.fetch = .ok 0x00EE :=
    Machine.fetch_of_image (k := 2) hstill rfl (by decide) (by decide)
  have hc : c.tick = ⟨.ok (), d, d.output⟩ := by
    have hb : c.runBatch = .done next := Machine.batch_of_fetch hf rfl
    rw [Console.tick_of_runs rfl rfl, hb]
  have hd : d.tick.result = .error .emptyCallStack := by
    have hb : d.runBatch = .halted .emptyCallStack d.machine.past :=
      Machine.batch_of_obstacle hf' rfl
    rw [Console.tick_of_runs rfl rfl, hb]
  have hpoll : s.handle (.poll 0) = ⟨some (.ok true), ⟨d, ⟨16, some 0⟩, false⟩, d.output⟩ := by
    rw [handle, poll_of_isDue rfl rfl]
    show (⟨some (c.tick.result.map fun _ => true), ⟨c.tick.console, ⟨16, some 0⟩, false⟩,
      c.tick.signals⟩ : Reply) = _
    rw [hc]
    rfl
  have ht : t = ⟨d, ⟨16, some 0⟩, false⟩ := by
    show ((s.handle (.poll 0)).session.handle (.volume 50)).session = _
    rw [hpoll]
    rfl
  have hsound : d.machine.sound = 8 := by
    have hset : next.sound = 9 := rfl
    show State.countDown next.sound = 8
    rw [hset]
    rfl
  have hsoundings : s.soundings events = [8] := by
    rw [soundings, hpoll]
    exact congrArg ([·]) hsound
  have herror : (t.handle (.poll 16)).answer = some (.error .emptyCallStack) := by
    rw [ht, handle, poll_of_isDue rfl rfl]
    show some (d.tick.result.map fun _ => true) = _
    rw [hd]
    rfl
  obtain ⟨hplaying, hstatus, hstep, hfailed, -, -⟩ := buzzer_follows_timer c (.every 16) events
  obtain ⟨-, -, -, -, -, hdisposed⟩ :=
    buzzer_follows_timer c (.every 16) (events ++ [.dispose])
  have hon : b.playing = true :=
    hplaying.mpr ⟨congrArg Session.disposed ht, 8, by rw [hsoundings]; rfl, by decide⟩
  refine ⟨hsoundings, hon, hstatus.mpr hon, ?_, herror, hfailed 16 _ herror,
    hdisposed events [] rfl⟩
  refine hstep.trans (if_pos ?_)
  rw [signals, hpoll, Console.output, hsound]
  rfl

end Session

end ChipEight
