import ChipEight.Console.Journal
import ChipEight.Proofs.Rest

/-!
# Faults are final

A console keeps the first fault that one of its batches meets. From then on it rests for good: no
event takes the fault away, ticks report it and do nothing else, and what still comes in from
outside is told by `Machine.received`.

* `fault_run`: a fault that is kept stays
* `errors_journal`: the one error that a console notes is the fault it keeps, at the counter where
  it stands
* `fault_is_final`: both, with what is left to change and what is still signalled
-/

namespace ChipEight

/-! ## Errors among notes -/

/-- The notes of level `error`. -/
def errors (notes : List Note) : List Note := notes.filter fun note => note.level = .error

theorem errors_append (notes more : List Note) :
    errors (notes ++ more) = errors notes ++ errors more := List.filter_append notes more

theorem errors_eq_nil {notes : List Note} (h : ∀ note ∈ notes, note.level ≠ .error) :
    errors notes = [] :=
  List.filter_eq_nil_iff.mpr fun note hn => by simpa using h note hn

theorem level_of_mem_stepNotes {m : Machine} {note : Note} (h : note ∈ m.stepNotes) :
    note.level ≠ .error := by
  unfold Machine.stepNotes at h
  split at h
  · cases h
  · rcases List.mem_cons.mp h with rfl | h
    · exact nofun
    · split at h
      · obtain rfl := List.mem_singleton.mp h
        exact nofun
      · cases h

namespace Console

variable {c : Console} {cause : Fault} {event : Event}

theorem errors_loadNotes (image : List UInt8) : errors (loadNotes image) = [] := by
  unfold loadNotes
  split <;> rfl

theorem errors_deliverNotes (c : Console) (key : UInt8) : errors (c.deliverNotes key) = [] := by
  unfold deliverNotes
  split <;> rfl

theorem errors_notes (h : event ≠ .tick) : errors (c.notes event) = [] := by
  cases event with
  | tick => exact absurd rfl h
  | load image => exact errors_loadNotes image
  | loadFrom source =>
    simp only [notes]
    split
    · next image _ => exact errors_loadNotes image
    · rfl
  | press key => exact errors_deliverNotes c key
  | deliver key => exact errors_deliverNotes c key
  | release | volume => rfl

/-- Of a tick only the end of its batch may be an error. -/
theorem errors_tickNotes (c : Console) : errors c.tickNotes = c.haltNotes := by
  have hsteps : errors ((c.fetched .tick).flatMap Machine.stepNotes) = [] := by
    refine errors_eq_nil fun note hn => ?_
    obtain ⟨m, -, hm⟩ := List.mem_flatMap.mp hn
    exact level_of_mem_stepNotes hm
  have hhalt : errors c.haltNotes = c.haltNotes := by
    unfold haltNotes
    split
    · rfl
    · split <;> rfl
  rw [tickNotes, errors_append, hsteps, hhalt, List.nil_append]

theorem notes_tick_of_rests (h : c.rests = true) : c.notes .tick = [] := by
  have hf : c.fetched .tick = [] := if_pos h
  have hh : c.haltNotes = [] := if_pos h
  show c.tickNotes = []
  rw [tickNotes, hf, hh]
  rfl

/-! ## A fault that is kept stays -/

theorem fault_handle_of_fault (h : c.fault = some cause) (event : Event) :
    (c.handle event).console.fault = some cause := by
  by_cases he : event = .tick
  · subst he
    show c.tick.console.fault = some cause
    rw [tick_of_fault h]
    exact h
  · rw [fault_handle he, h]

theorem fault_run (h : c.fault = some cause) (events : List Event) :
    (c.run events).fault = some cause := by
  induction events generalizing c with
  | nil => exact h
  | cons event rest ih => exact ih (fault_handle_of_fault h event)

theorem machine_run_of_fault (h : c.fault = some cause) (events : List Event) :
    (c.run events).machine = c.machine.received events := by
  induction events generalizing c with
  | nil => exact (Machine.received_nil _).symm
  | cons event rest ih =>
    show ((c.handle event).console.run rest).machine = _
    rw [ih (fault_handle_of_fault h event), machine_handle_of_rests (rests_of_fault h),
      ← Machine.received_cons]

theorem fault_tick (h : c.tick.result = .error cause) : c.tick.console.fault = some cause := by
  cases hf : c.fault with
  | some kept =>
    rw [tick_of_fault hf] at h ⊢
    cases h
    exact hf
  | none =>
    cases hk : c.awaitsKey with
    | true =>
      rw [tick_of_awaitsKey hf hk] at h
      cases h
    | false =>
      rw [tick_of_runs hf hk] at h ⊢
      cases hb : c.runBatch with
      | done m =>
        rw [hb] at h
        cases h
      | halted kept m =>
        rw [hb] at h
        cases h
        rfl

/-- An image that is copied into memory was loaded without a fault. -/
theorem result_of_image? {image : List UInt8} (h : event.image? = some image) :
    (c.handle event).result = .ok () := by
  have hfit : image.length ≤ programCapacity := by
    simpa using (Option.filter_eq_some_iff.mp h).2
  have ho : event.offered? = some image := (Option.filter_eq_some_iff.mp h).1
  cases event with
  | load bytes =>
    cases ho
    show (c.load image).result = _
    rw [load_of_le hfit]
  | loadFrom source =>
    cases hs : Image.ofReadings source with
    | ok bytes =>
      rw [Event.offered?, hs] at ho
      cases ho
      show (c.loadFrom source).result = _
      rw [loadFrom, hs]
      show (c.load image).result = _
      rw [load_of_le hfit]
    | error cause =>
      rw [Event.offered?, hs] at ho
      cases ho
  | _ => cases ho

/-- Only the volume is still signalled. -/
theorem signals_handle_of_fault (h : c.fault = some cause) {event : Event} {signal : Signal}
    (hs : signal ∈ (c.handle event).signals) : ∃ loudness, signal = .gain loudness := by
  by_cases he : event = .tick
  · subst he
    change signal ∈ c.tick.signals at hs
    rw [tick_of_fault h] at hs
    cases hs
  · exact gain_of_mem_signals he hs

theorem signals_of_fault (h : c.fault = some cause) (events : List Event) :
    ∀ signal ∈ c.signals events, ∃ loudness, signal = .gain loudness := by
  induction events generalizing c with
  | nil => nofun
  | cons event rest ih =>
    intro signal hs
    rcases List.mem_append.mp hs with hs | hs
    · exact signals_handle_of_fault h hs
    · exact ih (fault_handle_of_fault h event) signal hs

/-! ## The error that is noted -/

theorem errors_journal_of_fault (h : c.fault = some cause) (events : List Event) :
    errors (c.journal events) = [] := by
  induction events generalizing c with
  | nil => rfl
  | cons event rest ih =>
    have he : errors (c.notes event) = [] := by
      by_cases ht : event = .tick
      · rw [ht, notes_tick_of_rests (rests_of_fault h)]
        rfl
      · exact errors_notes ht
    rw [journal, errors_append, he, ih (fault_handle_of_fault h event)]
    rfl

/-- The note on the fault that a console keeps, if it keeps one. -/
def faultNotes (c : Console) : List Note :=
  match c.fault with
  | none => []
  | some cause => [.halting c.machine.counter cause]

theorem faultNotes_of_none (h : c.fault = none) : c.faultNotes = [] := by
  simp only [faultNotes, h]

theorem faultNotes_of_some (h : c.fault = some cause) :
    c.faultNotes = [.halting c.machine.counter cause] := by
  simp only [faultNotes, h]

theorem length_faultNotes_le (c : Console) : c.faultNotes.length ≤ 1 := by
  cases h : c.fault with
  | none => simp [faultNotes_of_none h]
  | some cause => simp [faultNotes_of_some h]

/-- Nothing moves the counter after a fault, so the note still fits the console later. -/
theorem faultNotes_run (h : c.fault = some cause) (events : List Event) :
    (c.run events).faultNotes = c.faultNotes := by
  rw [faultNotes_of_some (fault_run h events), faultNotes_of_some h, machine_run_of_fault h,
    Machine.counter_received]

theorem haltNotes_eq (h : c.fault = none) : c.haltNotes = c.tick.console.faultNotes := by
  cases hk : c.awaitsKey with
  | true =>
    have hr : c.rests = true := by simp [rests, hk]
    have hn : c.haltNotes = [] := if_pos hr
    rw [hn, console_tick_of_rests hr, faultNotes_of_none h]
  | false =>
    rw [haltNotes, if_neg (by simp [h, hk]), console_tick h hk]
    cases c.runBatch with
    | done m => exact (faultNotes_of_none (c := c.finish (.done m)) h).symm
    | halted cause m => rfl

/-- An event notes an error only if a fault comes with it. -/
theorem errors_notes_eq (h : c.fault = none) (event : Event) :
    errors (c.notes event) = (c.handle event).console.faultNotes := by
  by_cases ht : event = .tick
  · subst ht
    exact (errors_tickNotes c).trans (haltNotes_eq h)
  · rw [errors_notes ht, faultNotes_of_none ((fault_handle ht).trans h)]

/-- A console without a fault notes no error until it keeps a fault, and that fault then. -/
theorem errors_journal (h : c.fault = none) (events : List Event) :
    errors (c.journal events) = (c.run events).faultNotes := by
  induction events generalizing c with
  | nil => exact (faultNotes_of_none h).symm
  | cons event rest ih =>
    show errors (c.notes event ++ (c.handle event).console.journal rest) =
      ((c.handle event).console.run rest).faultNotes
    rw [errors_append, errors_notes_eq h]
    cases hf : (c.handle event).console.fault with
    | none => rw [faultNotes_of_none hf, ih hf, List.nil_append]
    | some cause => rw [errors_journal_of_fault hf, faultNotes_run hf, List.append_nil]

/-! ## The end of a console's work -/

/-- A tick that reports a fault is the last to do anything: whatever comes later, the fault is
kept, ticks report it and change, signal and note nothing, and only the volume is signalled. The
machine takes in images that fit, where programs start and behind it, and the first key, if the
batch of that tick made a register await one. Of all the notes on a console from its first event
on, at most one is an error: the fault that it keeps. -/
theorem fault_is_final :
    (∀ (c : Console) (cause : Fault), c.tick.result = .error cause → ∀ events : List Event,
      let failed := c.tick.console
      let later := failed.run events
      later.fault = some cause ∧
      later.tick = ⟨.error cause, later, []⟩ ∧
      later.notes .tick = [] ∧
      (∀ signal ∈ failed.signals events, ∃ loudness, signal = .gain loudness) ∧
      later.machine = failed.machine.received events ∧
      (∀ a < programStart, later.machine.memory.byteAt a = failed.machine.memory.byteAt a) ∧
      (∀ event image, event.image? = some image → (later.handle event).result = .ok ()) ∧
      (c.fault = none → failed.machine.awaiting =
        (waits (c.moments .tick)).getLast?.map Register.number)) ∧
    ∀ (c : Console), c.fault = none → ∀ events : List Event,
      errors (c.journal events) = (c.run events).faultNotes ∧
      (errors (c.journal events)).length ≤ 1 := by
  constructor
  · intro c cause hr events failed later
    have hfailed : failed.fault = some cause := fault_tick hr
    have hlater : later.fault = some cause := fault_run hfailed events
    have hm : later.machine = failed.machine.received events :=
      machine_run_of_fault hfailed events
    refine ⟨hlater, tick_of_fault hlater, notes_tick_of_rests (rests_of_fault hlater),
      signals_of_fault hfailed events, hm, ?_, ?_, ?_⟩
    · intro a ha
      rw [hm, Machine.byteAt_received ha]
    · intro event image hi
      exact result_of_image? hi
    · intro hf
      have hk : c.awaitsKey = false := by
        cases hk : c.awaitsKey with
        | false => rfl
        | true =>
          -- a console without a fault that awaits a key ticks without one
          rw [tick_of_awaitsKey hf hk] at hr
          cases hr
      exact awaiting_tick hf hk
  · intro c h events
    rw [errors_journal h]
    exact ⟨rfl, length_faultNotes_le _⟩

/-- A batch that makes `V3` await a key and then returns from no call. -/
theorem fault_is_final_awaiting :
    let c := ofProgram [0xF3, 0x0A, 0x00, 0xEE] 2
    let events := [.press 0x5, .load [0x12, 0x00], .tick, .deliver 0x6]
    let later := c.tick.console.run events
    c.tick.result = .error .emptyCallStack ∧ c.fault = none ∧
      later.tick = ⟨.error .emptyCallStack, later, []⟩ ∧
      later.machine.registers.get 0x3 = 0x5 ∧ later.machine.awaiting = none ∧
      (errors (c.journal (.tick :: events))).length ≤ 1 := by
  intro c events later
  let m := c.machine
  let next := m.after c.settings c.pad 0xF30A
  have hm : m.memory = Memory.zero.overwrite programStart [0xF3, 0x0A, 0x00, 0xEE] := rfl
  have hf : m.fetch = .ok 0xF30A := Machine.fetch_of_image (k := 0) hm rfl (by decide) (by decide)
  have hm' : next.memory = m.memory := Machine.memory_after (i := .awaitKey 0x3) rfl
  have hf' : next.fetch = .ok 0x00EE :=
    Machine.fetch_of_image (k := 2) (hm'.trans hm) rfl (by decide) (by decide)
  have hb : c.runBatch = .halted .emptyCallStack next.past := by
    show m.batch c.settings c.pad (0 + 1 + 1) = _
    rw [Machine.batch_of_fetch hf rfl, Machine.batch_of_obstacle hf' rfl]
  have ht : c.tick = ⟨.error .emptyCallStack, c.finish (.halted .emptyCallStack next.past), []⟩ := by
    rw [tick_of_runs rfl rfl, hb]
  have hr : c.tick.result = .error .emptyCallStack := by rw [ht]
  obtain ⟨-, hlater, -, -, hreceived, -⟩ := fault_is_final.1 c _ hr events
  have hmachine : later.machine = next.past.received events := by
    rw [hreceived, ht]
    rfl
  have hkeyed : next.past.received events = (next.past.keyed (some 0x5)).copied [[0x12, 0x00]] := rfl
  have ha : next.past.awaiting = some 0x3 := rfl
  rw [Machine.keyed_of_awaiting ha] at hkeyed
  refine ⟨hr, rfl, hlater, ?_, ?_, (fault_is_final.2 c rfl _).2⟩
  · rw [hmachine, hkeyed]
    exact (Registers.get_setNumbered _ _ _ _).trans (if_pos rfl)
  · rw [hmachine, hkeyed]
    rfl

end Console

end ChipEight
