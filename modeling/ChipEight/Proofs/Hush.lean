import ChipEight.Proofs.Dependence

/-!
# Sound plays no part in computation

A console without its sound timer and without the frequency of its tone is its `hush`. Consoles
with one hush compute alike: whatever happens to them, they have one hush again, answer in the same
way and show the same frames. Changes of volume may come in anywhere and do nothing to that.

* `batch_hush`, `tick_hush`, `handle_hush`: batches, ticks and events
* `alike_withoutVolume`: changes of volume leave no trace
* `sound_is_inert`: the same over runs
-/

namespace ChipEight

/-! ## What is left without the sound -/

/-- The machine without its sound timer. -/
def Machine.hush (m : Machine) : Machine := m.withTimers m.delay 0

/-- The settings without the frequency of the tone. -/
def Settings.hush (settings : Settings) : Settings := { settings with toneFrequency := 0 }

/-- The console without its sound timer and the frequency of its tone. -/
def Console.hush (c : Console) : Console := c.map .hush .hush

/-- The frame that a signal puts on the screen. -/
def Signal.picture? : Signal → Option Frame
  | .picture frame => some frame
  | _ => none

/-- Whether an event is a change of volume. -/
def Event.isVolume : Event → Bool
  | .volume _ => true
  | _ => false

/-- Events without the changes of volume among them. -/
def withoutVolume (events : List Event) : List Event :=
  events.filter fun event => !event.isVolume

namespace Console

/-- The frames that events put on the screen, in order. -/
def pictures (c : Console) (events : List Event) : List Frame :=
  (c.signals events).filterMap Signal.picture?

/-- The results of events other than changes of volume, in order. -/
def results (c : Console) : List Event → List (Except Fault Unit)
  | [] => []
  | event :: rest =>
    (if event.isVolume then [] else [(c.handle event).result]) ++
      (c.handle event).console.results rest

/-- Whether two consoles, each after events of its own, differ in nothing but sound: not in what
they are, nor in what they answered, nor in what they showed. -/
structure Alike (c : Console) (events : List Event) (d : Console) (events' : List Event) :
    Prop where
  hush_run : (c.run events).hush = (d.run events').hush
  results_eq : c.results events = d.results events'
  pictures_eq : c.pictures events = d.pictures events'

end Console

/-! ## Words and batches -/

namespace Machine

variable {settings : Settings} {pad : HexPad} {m m' : Machine}

theorem hush_after_hush (word : UInt16) :
    (m.hush.after settings pad word).hush = (m.after settings pad word).hush := by
  have hpast : m.hush.past = m.past.withTimers m.past.delay 0 := rfl
  unfold after
  rw [hpast, Instruction.effect_withTimers (.inr rfl)]
  -- the delay timer is the same as well, since no word sets it from the sound timer
  cases Instruction.ofWord word <;> rfl

theorem step_hush (m : Machine) :
    (m.hush.step settings pad).map hush = (m.step settings pad).map hush := by
  cases hf : m.fetch with
  | error cause =>
    have hf' : m.hush.fetch = .error cause := hf
    rw [step_of_fetch_error hf, step_of_fetch_error hf']
    rfl
  | ok word =>
    have hf' : m.hush.fetch = .ok word := hf
    have ho' : m.hush.obstacle? settings word = m.obstacle? settings word :=
      obstacle?_withTimers settings m m.delay 0 word
    cases ho : m.obstacle? settings word with
    | some cause =>
      rw [step_eq_halted_iff.mpr (.inr ⟨word, hf, ho, rfl⟩),
        step_eq_halted_iff.mpr (.inr ⟨word, hf', ho'.trans ho, rfl⟩)]
      rfl
    | none =>
      rw [step_eq_done_iff.mpr ⟨word, hf, ho, rfl⟩,
        step_eq_done_iff.mpr ⟨word, hf', ho'.trans ho, rfl⟩]
      exact congrArg Outcome.done (hush_after_hush word)

/-- The timers run side by side, and the delay timer does not look at the other. -/
theorem hush_advanceTimers (h : m.hush = m'.hush) :
    hush { m with toState := m.toState.advanceTimers } =
      hush { m' with toState := m'.toState.advanceTimers } := by
  have hadvance : ∀ m : Machine, hush { m with toState := m.toState.advanceTimers } =
      { m.hush with delay := State.countDown m.hush.delay } := fun _ => rfl
  rw [hadvance, hadvance, h]

theorem hush_received (m : Machine) (events : List Event) :
    (m.received events).hush = m.hush.received events := by
  have hdelay : (m.received events).delay = m.delay := by
    unfold received copied keyed
    split <;> rfl
  unfold hush
  rw [received_withTimers, hdelay]

theorem batch_hush (n : Nat) (h : m.hush = m'.hush) :
    (m.batch settings pad n).map hush = (m'.batch settings pad n).map hush := by
  refine batch_map (fun {m m'} h => ?_) n h
  rw [← step_hush m, ← step_hush m', h]

end Machine

namespace Console

variable {c d : Console} {event : Event}

/-! ## Events -/

/-- The frame is shown whether or not the tone sounds. -/
theorem filterMap_output (c : Console) :
    c.output.filterMap Signal.picture? = [c.machine.frame] := by
  unfold output
  split <;> rfl

theorem pictures_output (h : c.hush = d.hush) :
    c.output.filterMap Signal.picture? = d.output.filterMap Signal.picture? := by
  have hframe : c.machine.frame = d.machine.frame := by
    show c.hush.machine.frame = d.hush.machine.frame
    rw [h]
  rw [filterMap_output, filterMap_output, hframe]

theorem runBatch_hush (h : c.hush = d.hush) :
    c.runBatch.map .hush = d.runBatch.map .hush := by
  obtain ⟨hmachine, hsettings, hpad, -⟩ := map_eq_iff.mp h
  have hrules : c.settings.SameRules d.settings :=
    Settings.sameRules_of_eq (g := Settings.hush) (fun _ => ⟨rfl, rfl, rfl⟩) hsettings
  have hn : c.settings.hush.instructionsPerTick = d.settings.hush.instructionsPerTick := by
    rw [hsettings]
  show (c.machine.batch c.settings c.pad c.settings.hush.instructionsPerTick).map .hush =
    (d.machine.batch d.settings d.pad d.settings.hush.instructionsPerTick).map .hush
  rw [hn, hpad, Machine.batch_of_sameRules hrules]
  exact Machine.batch_hush _ hmachine

/-- The reply to an event is the same but for sound. -/
theorem tick_hush (h : c.hush = d.hush) :
    c.tick.result = d.tick.result ∧ c.tick.console.hush = d.tick.console.hush ∧
      c.tick.signals.filterMap Signal.picture? = d.tick.signals.filterMap Signal.picture? := by
  obtain ⟨-, -, -, hfault⟩ := map_eq_iff.mp h
  have hawaits : d.awaitsKey = c.awaitsKey := by
    show d.hush.awaitsKey = c.hush.awaitsKey
    rw [h]
  cases hf : c.fault with
  | some cause =>
    rw [tick_of_fault hf, tick_of_fault (hfault.symm.trans hf)]
    exact ⟨rfl, h, rfl⟩
  | none =>
    cases hk : c.awaitsKey with
    | true =>
      rw [tick_of_awaitsKey hf hk, tick_of_awaitsKey (hfault.symm.trans hf) (hawaits.trans hk)]
      exact ⟨rfl, h, pictures_output h⟩
    | false =>
      have hb := runBatch_hush h
      have hfinish : (c.finish c.runBatch).hush = (d.finish d.runBatch).hush :=
        finish_map Machine.hush_advanceTimers h hb
      rw [tick_of_runs hf hk, tick_of_runs (hfault.symm.trans hf) (hawaits.trans hk)]
      cases hc : c.runBatch with
      | done m =>
        cases hd : d.runBatch with
        | done m' =>
          rw [hc, hd] at hfinish
          exact ⟨rfl, hfinish, pictures_output hfinish⟩
        | halted cause m' =>
          rw [hc, hd] at hb
          cases hb
      | halted cause m =>
        cases hd : d.runBatch with
        | done m' =>
          rw [hc, hd] at hb
          cases hb
        | halted cause' m' =>
          rw [hc, hd] at hb hfinish
          obtain ⟨rfl, -⟩ := Outcome.halted.inj hb
          exact ⟨rfl, hfinish, rfl⟩

theorem handle_hush (h : c.hush = d.hush) (event : Event) :
    (c.handle event).result = (d.handle event).result ∧
      (c.handle event).console.hush = (d.handle event).console.hush ∧
      (c.handle event).signals.filterMap Signal.picture? =
        (d.handle event).signals.filterMap Signal.picture? := by
  by_cases he : event = .tick
  · subst he
    exact tick_hush h
  · obtain ⟨hresult, hsignals⟩ := answer_handle he c d
    exact ⟨hresult, handle_map (fun m => m.hush_received [event]) he h, by rw [hsignals]⟩

/-! ## Runs -/

theorem Alike.cons {rest rest' : List Event} (hr : (c.handle event).result = (d.handle event).result)
    (hs : (c.handle event).signals.filterMap Signal.picture? =
      (d.handle event).signals.filterMap Signal.picture?)
    (h : (c.handle event).console.Alike rest (d.handle event).console rest') :
    c.Alike (event :: rest) d (event :: rest') := by
  obtain ⟨hrun, hresults, hpictures⟩ := h
  refine ⟨hrun, ?_, ?_⟩
  · rw [results, results, hr, hresults]
  · unfold pictures at hpictures ⊢
    rw [signals, signals, List.filterMap_append, List.filterMap_append, hs, hpictures]

theorem alike_of_hush (h : c.hush = d.hush) (events : List Event) : c.Alike events d events := by
  induction events generalizing c d with
  | nil => exact ⟨h, rfl, rfl⟩
  | cons event rest ih =>
    obtain ⟨hresult, hhush, hpictures⟩ := handle_hush h event
    exact .cons hresult hpictures (ih hhush)

/-- Changes of volume leave no trace in what a console is, answers or shows. -/
theorem alike_withoutVolume (c : Console) (events : List Event) :
    c.Alike events c (withoutVolume events) := by
  induction events generalizing c with
  | nil => exact ⟨rfl, rfl, rfl⟩
  | cons event rest ih =>
    cases event with
    | volume percent =>
      obtain ⟨hrun, hresults, hpictures⟩ := ih c
      exact ⟨hrun, hresults, hpictures⟩
    | tick | load | loadFrom | press | release | deliver => exact .cons rfl rfl (ih _)

theorem alike_of_withoutVolume (h : c.hush = d.hush) {events events' : List Event}
    (he : withoutVolume events = withoutVolume events') : c.Alike events d events' := by
  obtain ⟨hrun, hresults, hpictures⟩ := alike_withoutVolume c events
  obtain ⟨hrun', hresults', hpictures'⟩ := alike_withoutVolume d events'
  obtain ⟨hsame, hanswers, hshown⟩ := alike_of_hush h (withoutVolume events')
  rw [he] at hrun hresults hpictures
  exact ⟨hrun.trans (hsame.trans hrun'.symm), hresults.trans (hanswers.trans hresults'.symm),
    hpictures.trans (hshown.trans hpictures'.symm)⟩

end Console

/-- Every event that is no change of volume has its counterpart, with the same events before it. -/
theorem withoutVolume_split {events events' before after : List Event} {event : Event}
    (h : withoutVolume events = withoutVolume events') (he : events = before ++ event :: after)
    (hv : event.isVolume = false) :
    ∃ before' after', events' = before' ++ event :: after' ∧
      withoutVolume (before ++ [event]) = withoutVolume (before' ++ [event]) := by
  have hevents : withoutVolume events' =
      withoutVolume before ++ event :: withoutVolume after := by
    rw [← h, he, withoutVolume, List.filter_append, List.filter_cons_of_pos (by rw [hv]; rfl)]
    rfl
  obtain ⟨start, rest, rfl, hstart, hrest⟩ := List.filter_eq_append_iff.mp hevents
  obtain ⟨skipped, after', rfl, hskipped, -, -⟩ := List.filter_eq_cons_iff.mp hrest
  refine ⟨start ++ skipped, after', by rw [List.append_assoc], ?_⟩
  -- what was skipped to reach the counterpart are changes of volume
  have hnone : withoutVolume skipped = [] := List.filter_eq_nil_iff.mpr hskipped
  unfold withoutVolume at hstart hnone ⊢
  rw [List.filter_append, List.filter_append, List.filter_append, hstart, hnone, List.append_nil]

namespace Console

/-- Sound has no part in what a program does. Take two consoles that differ at most in their sound
timers and in the frequencies of their tones, and events that differ at most in the changes of
volume among them. After all of them, as after every event that is no change of volume and its
counterpart, the consoles again differ in no more than that, they gave the same results, and they
showed the same frames. -/
theorem sound_is_inert (c d : Console) (h : c.hush = d.hush) (events events' : List Event)
    (he : withoutVolume events = withoutVolume events') :
    c.Alike events d events' ∧
    ∀ before event after, events = before ++ event :: after → event.isVolume = false →
      ∃ before' after', events' = before' ++ event :: after' ∧
        c.Alike (before ++ [event]) d (before' ++ [event]) := by
  refine ⟨alike_of_withoutVolume h he, ?_⟩
  intro before event after hsplit hv
  obtain ⟨before', after', hsplit', hsame⟩ := withoutVolume_split he hsplit hv
  exact ⟨before', after', hsplit', alike_of_withoutVolume h hsame⟩

/-- One console sounds a tone all along while the other is silent and its volume is turned. -/
theorem sound_is_inert_apart :
    let c := ofProgram [0xF0, 0x18] 1
    let d : Console := { c with
      machine := { c.machine with sound := 9 }, settings := { c.settings with toneFrequency := 440 } }
    let events := [.tick, .press 0x3]
    let events' := [.volume 10, .tick, .volume 20, .press 0x3, .volume 0]
    c.hush = d.hush ∧ c.output ≠ d.output ∧ withoutVolume events = withoutVolume events' ∧
      c.Alike events d events' := by
  intro c d events events'
  have h : c.hush = d.hush := rfl
  have he : withoutVolume events = withoutVolume events' := rfl
  refine ⟨h, ?_, he, (sound_is_inert c d h events events' he).1⟩
  intro ho
  cases (List.cons.inj ho).1

end Console

end ChipEight
