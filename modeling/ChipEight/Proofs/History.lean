import ChipEight.Console
import ChipEight.Proofs.Step

/-!
# Histories of a console

`Console.run` knows a console only between events, but a tick changes it many times. Its history
lists every change on the way: each word that is carried out, the timers, the fault that ends a
batch, and what comes in from outside.

* `path_history`: the changes of a history follow one another and end where the run ends
* `Path.split`: any change of a history was made where the ones before it left the console
* `Path.invariant`: what every change keeps, holds at every moment
* `touched_handle`, `fault_handle`: what events other than ticks do to the machine and the fault
-/

namespace ChipEight

/-- What happens to a console at one moment. -/
inductive Change where
  /-- a word was fetched and carried out -/
  | word (word : UInt16)
  /-- a word could not be fetched or carried out -/
  | halt (cause : Fault)
  /-- the timers ran at the end of a batch -/
  | timers
  /-- an event other than a tick -/
  | host (event : Event)

/-- A change with the consoles before and after it. -/
structure Moment where
  change : Change
  before : Console
  after : Console

namespace Console

/-- The console with another machine. -/
def withMachine (c : Console) (m : Machine) : Console := { c with machine := m }

/-- The console at the end of a batch: the timers run, or the fault is kept. -/
def finish (c : Console) : Outcome → Console
  | .done m => c.withMachine { m with toState := m.toState.advanceTimers }
  | .halted cause m => { c with machine := m, fault := some cause }

/-- The moments of a batch. -/
def batchMoments : Nat → Console → List Moment
  | 0, c => [⟨.timers, c, c.finish (.done c.machine)⟩]
  | n + 1, c =>
    match c.machine.fetch with
    | .error cause => [⟨.halt cause, c, c.finish (.halted cause c.machine)⟩]
    | .ok word =>
      match c.machine.perform c.settings c.pad word with
      | .halted cause m => [⟨.halt cause, c, c.finish (.halted cause m)⟩]
      | .done m => ⟨.word word, c, c.withMachine m⟩ :: batchMoments n (c.withMachine m)

/-- The moments of an event. A tick that is not allowed to run a batch has none. -/
def moments (c : Console) : Event → List Moment
  | .tick =>
    if c.fault.isSome || c.awaitsKey then [] else batchMoments c.settings.instructionsPerTick c
  | event => [⟨.host event, c, (c.handle event).console⟩]

/-- The moments of events, in order. -/
def history (c : Console) : List Event → List Moment
  | [] => []
  | event :: rest => c.moments event ++ (c.handle event).console.history rest

/-- The consoles that events lead through, the first and the last among them. -/
def states (c : Console) (events : List Event) : List Console :=
  c :: (c.history events).map Moment.after

/-- The replies to events, in order. -/
def replies (c : Console) : List Event → List Reply
  | [] => []
  | event :: rest => c.handle event :: (c.handle event).console.replies rest

/-- The console that moments lead to. -/
def reached (c : Console) (xs : List Moment) : Console := xs.foldl (fun _ x => x.after) c

/-- A word that meets no obstacle is the first moment of a batch. -/
theorem batchMoments_succ {c : Console} {word : UInt16} (n : Nat) (hf : c.machine.fetch = .ok word)
    (ho : c.machine.obstacle? c.settings word = none) :
    batchMoments (n + 1) c =
      ⟨.word word, c, c.withMachine (c.machine.after c.settings c.pad word)⟩ ::
        batchMoments n (c.withMachine (c.machine.after c.settings c.pad word)) := by
  have hp : c.machine.perform c.settings c.pad word =
      .done (c.machine.after c.settings c.pad word) :=
    Machine.perform_eq_done_iff.mpr ⟨ho, rfl⟩
  simp only [batchMoments, hf, hp]

/-- A word that meets an obstacle is the only moment of a batch. -/
theorem batchMoments_of_obstacle {c : Console} {word : UInt16} {cause : Fault} (n : Nat)
    (hf : c.machine.fetch = .ok word) (ho : c.machine.obstacle? c.settings word = some cause) :
    batchMoments (n + 1) c = [⟨.halt cause, c, c.finish (.halted cause c.machine.past)⟩] := by
  have hp : c.machine.perform c.settings c.pad word = .halted cause c.machine.past :=
    Machine.perform_eq_halted_iff.mpr ⟨ho, rfl⟩
  simp only [batchMoments, hf, hp]

/-- A batch moves nothing but the machine, and nothing comes in from outside. -/
theorem of_mem_batchMoments {c : Console} {n : Nat} {x : Moment} (h : x ∈ batchMoments n c) :
    (∃ m, x.before = c.withMachine m) ∧ ∀ event, x.change ≠ .host event := by
  induction n generalizing c with
  | zero =>
    obtain rfl := List.mem_singleton.mp h
    exact ⟨⟨c.machine, rfl⟩, nofun⟩
  | succ n ih =>
    unfold batchMoments at h
    split at h
    · obtain rfl := List.mem_singleton.mp h
      exact ⟨⟨c.machine, rfl⟩, nofun⟩
    · split at h
      · obtain rfl := List.mem_singleton.mp h
        exact ⟨⟨c.machine, rfl⟩, nofun⟩
      · rcases List.mem_cons.mp h with rfl | h
        · exact ⟨⟨c.machine, rfl⟩, nofun⟩
        · obtain ⟨⟨m, hm⟩, hi⟩ := ih h
          exact ⟨⟨m, hm⟩, hi⟩

/-! ## Changes -/

/-- What a change makes of a console. -/
inductive Moves (c : Console) : Change → Console → Prop
  | word {word : UInt16} {m : Machine} (hf : c.machine.fetch = .ok word)
      (hp : c.machine.perform c.settings c.pad word = .done m) :
      Moves c (.word word) (c.withMachine m)
  | halt {cause : Fault} {m : Machine} (h : c.machine.step c.settings c.pad = .halted cause m) :
      Moves c (.halt cause) (c.finish (.halted cause m))
  | timers : Moves c .timers (c.finish (.done c.machine))
  | host {event : Event} (h : event ≠ .tick) : Moves c (.host event) (c.handle event).console

theorem Moves.settings_eq {c d : Console} {change : Change} (h : c.Moves change d) :
    d.settings = c.settings := by
  cases h with
  | host he => exact settings_handle _ _
  | _ => rfl

/-- A word that was carried out had been fetched and met no obstacle. -/
theorem Moves.of_word {c d : Console} {word : UInt16} (h : c.Moves (.word word) d) :
    c.machine.fetch = .ok word ∧ c.machine.obstacle? c.settings word = none ∧
      d = c.withMachine (c.machine.after c.settings c.pad word) := by
  cases h with
  | word hf hp =>
    obtain ⟨ho, rfl⟩ := Machine.perform_eq_done_iff.mp hp
    exact ⟨hf, ho, rfl⟩

/-- Changes that follow one another. -/
inductive Path : Console → List Moment → Console → Prop
  | nil (c : Console) : Path c [] c
  | cons {c next last : Console} {change : Change} {rest : List Moment} :
      c.Moves change next → Path next rest last → Path c (⟨change, c, next⟩ :: rest) last

namespace Path

variable {c d e : Console} {xs ys : List Moment} {x : Moment}

theorem append (h : Path c xs d) (h' : Path d ys e) : Path c (xs ++ ys) e := by
  induction h with
  | nil => exact h'
  | cons hm _ ih => exact .cons hm (ih h')

theorem single {change : Change} (h : c.Moves change d) : Path c [⟨change, c, d⟩] d :=
  .cons h (.nil d)

/-- A change was made where the changes before it left the console. -/
theorem split (h : Path c (xs ++ x :: ys) e) :
    Path c xs x.before ∧ x.before.Moves x.change x.after ∧ Path x.after ys e := by
  induction xs generalizing c with
  | nil =>
    cases h with
    | cons hm hp => exact ⟨.nil c, hm, hp⟩
  | cons y xs ih =>
    cases h with
    | cons hm hp =>
      obtain ⟨hx, hmx, hy⟩ := ih hp
      exact ⟨.cons hm hx, hmx, hy⟩

theorem reached (h : Path c xs d) : c.reached xs = d := by
  induction h with
  | nil => rfl
  | cons _ _ ih => exact ih

/-- The first part of changes that follow one another leads to where the rest begins. -/
theorem of_append (h : Path c (xs ++ ys) d) :
    Path c xs (c.reached xs) ∧ Path (c.reached xs) ys d := by
  induction xs generalizing c with
  | nil => exact ⟨.nil c, h⟩
  | cons x xs ih =>
    cases h with
    | cons hm hp =>
      obtain ⟨hx, hy⟩ := ih hp
      exact ⟨.cons hm hx, hy⟩

theorem settings_eq (h : Path c xs d) : d.settings = c.settings := by
  induction h with
  | nil => rfl
  | cons hm _ ih => exact ih.trans hm.settings_eq

theorem moves_of_mem (h : Path c xs d) (hx : x ∈ xs) :
    x.before.Moves x.change x.after ∧ x.before.settings = c.settings := by
  obtain ⟨before, after, rfl⟩ := List.append_of_mem hx
  obtain ⟨hp, hm, -⟩ := h.split
  exact ⟨hm, hp.settings_eq⟩

/-- What every change keeps, holds after every change. -/
theorem invariant {P : Console → Prop} (h : Path c xs e) (hc : P c)
    (hstep : ∀ {c d : Console} {change : Change}, P c → c.Moves change d → P d) :
    P e ∧ ∀ x ∈ xs, P x.after := by
  induction h with
  | nil => exact ⟨hc, by simp⟩
  | cons hm _ ih =>
    have hn := hstep hc hm
    obtain ⟨he, hrest⟩ := ih hn
    refine ⟨he, ?_⟩
    rintro x (_ | ⟨_, hx⟩)
    · exact hn
    · exact hrest x hx

end Path

/-! ## Histories are paths -/

theorem finish_withMachine (c : Console) (m : Machine) (o : Outcome) :
    (c.withMachine m).finish o = c.finish o := by
  cases o <;> rfl

theorem path_batchMoments (n : Nat) (c : Console) :
    Path c (batchMoments n c) (c.finish (c.machine.batch c.settings c.pad n)) := by
  -- both recursions take the same step, which moves only the machine of the console
  induction n generalizing c with
  | zero => exact .single .timers
  | succ n ih =>
    rw [batchMoments, Machine.batch]
    cases hf : c.machine.fetch with
    | error cause =>
      rw [Machine.step_of_fetch_error hf]
      exact .single (.halt (Machine.step_of_fetch_error hf))
    | ok word =>
      have hs : c.machine.step c.settings c.pad = c.machine.perform c.settings c.pad word :=
        Machine.step_of_fetch hf
      rw [hs]
      dsimp only
      cases hp : c.machine.perform c.settings c.pad word with
      | halted cause m => exact .single (.halt (hs.trans hp))
      | done m =>
        have hrest := ih (c.withMachine m)
        rw [finish_withMachine] at hrest
        exact .cons (.word hf hp) hrest

/-- A tick that may run a batch ends as the batch ends. -/
theorem tick_of_runs {c : Console} (hf : c.fault = none) (hk : c.awaitsKey = false) :
    c.tick =
      match c.runBatch with
      | .done m => ⟨.ok (), c.finish (.done m), (c.finish (.done m)).output⟩
      | .halted cause m => ⟨.error cause, c.finish (.halted cause m), []⟩ := by
  -- with the fault opened, its match is gone and the batch is still a name
  obtain ⟨m, settings, pad, fault⟩ := c
  obtain rfl : fault = none := hf
  refine (if_neg (by simp [hk])).trans ?_
  cases runBatch ⟨m, settings, pad, none⟩ <;> rfl

theorem console_tick {c : Console} (hf : c.fault = none) (hk : c.awaitsKey = false) :
    c.tick.console = c.finish c.runBatch := by
  rw [tick_of_runs hf hk]
  cases c.runBatch <;> rfl

/-- The reply of a tick that leaves a console as it is told here: it reports the fault that is kept,
or signals the console's output. -/
def report (c : Console) : Reply :=
  match c.fault with
  | some cause => ⟨.error cause, c, []⟩
  | none => ⟨.ok (), c, c.output⟩

theorem report_of_fault {c : Console} {cause : Fault} (h : c.fault = some cause) :
    c.report = ⟨.error cause, c, []⟩ := by
  rw [report, h]

theorem report_of_no_fault {c : Console} (h : c.fault = none) : c.report = ⟨.ok (), c, c.output⟩ := by
  rw [report, h]

/-- What a tick answers and signals can be told from the console that it leaves. -/
theorem tick_eq_report (c : Console) : c.tick = c.tick.console.report := by
  cases hf : c.fault with
  | some cause => rw [tick_of_fault hf, report_of_fault hf]
  | none =>
    cases hk : c.awaitsKey with
    | true => rw [tick_of_awaitsKey hf hk, report_of_no_fault hf]
    | false =>
      rw [tick_of_runs hf hk]
      cases c.runBatch with
      | done m => exact (report_of_no_fault (c := c.finish (.done m)) hf).symm
      | halted cause m => exact (report_of_fault (c := c.finish (.halted cause m)) rfl).symm

theorem moments_tick_of_runs {c : Console} (hf : c.fault = none) (hk : c.awaitsKey = false) :
    c.moments .tick = batchMoments c.settings.instructionsPerTick c :=
  if_neg (by simp [hf, hk])

theorem moments_of_ne_tick {c : Console} {event : Event} (h : event ≠ .tick) :
    c.moments event = [⟨.host event, c, (c.handle event).console⟩] := by
  cases event with
  | tick => exact absurd rfl h
  | _ => rfl

theorem path_moments (c : Console) (event : Event) :
    Path c (c.moments event) (c.handle event).console := by
  cases event with
  | tick =>
    show Path c (if c.fault.isSome || c.awaitsKey then [] else _) c.tick.console
    cases hf : c.fault with
    | some cause =>
      rw [tick_of_fault hf]
      exact .nil c
    | none =>
      cases hk : c.awaitsKey with
      | true =>
        rw [tick_of_awaitsKey hf hk]
        exact .nil c
      | false =>
        rw [console_tick hf hk]
        exact path_batchMoments c.settings.instructionsPerTick c
  | load | loadFrom | press | release | deliver | volume => exact .single (.host nofun)

/-- Only ticks carry out words. -/
theorem eq_tick_of_word {c : Console} {event : Event} {x : Moment} {w : UInt16}
    (h : x ∈ c.moments event) (hx : x.change = .word w) : event = .tick := by
  cases event with
  | tick => rfl
  | load | loadFrom | press | release | deliver | volume =>
    obtain rfl := List.mem_singleton.mp h
    cases hx

/-- The changes of a history follow one another and end where the run ends. -/
theorem path_history (c : Console) (events : List Event) :
    Path c (c.history events) (c.run events) := by
  induction events generalizing c with
  | nil => exact .nil c
  | cons event rest ih => exact (path_moments c event).append (ih (c.handle event).console)

theorem history_append (c : Console) (before after : List Event) :
    c.history (before ++ after) = c.history before ++ (c.run before).history after := by
  induction before generalizing c with
  | nil => rfl
  | cons event rest ih =>
    rw [List.cons_append, history, ih, history, List.append_assoc]
    rfl

theorem run_cons (c : Console) (event : Event) (rest : List Event) :
    c.run (event :: rest) = (c.handle event).console.run rest := rfl

theorem replies_append (c : Console) (before after : List Event) :
    c.replies (before ++ after) = c.replies before ++ (c.run before).replies after := by
  induction before generalizing c with
  | nil => rfl
  | cons event rest ih =>
    rw [List.cons_append, replies, ih, replies, run_cons, List.cons_append]

theorem Path.mem_last {c e : Console} {xs : List Moment} (h : Path c xs e) :
    e ∈ c :: xs.map Moment.after := by
  induction h with
  | nil => exact List.mem_cons_self
  | cons _ _ ih => exact List.mem_cons_of_mem _ ih

/-- A moment of a history is one of an event, after the histories of the events before it. -/
theorem history_split {c : Console} {events : List Event} {xs ys : List Moment} {x : Moment}
    (h : c.history events = xs ++ x :: ys) :
    ∃ before event after zs ws, events = before ++ event :: after ∧
      xs = c.history before ++ zs ∧ (c.run before).moments event = zs ++ x :: ws := by
  induction events generalizing c xs with
  | nil => simp [history] at h
  | cons event rest ih =>
    -- the moment is among those of the first event, or in the history of the others
    rcases List.append_eq_append_iff.mp h with ⟨zs, rfl, hr⟩ | ⟨ws, hm, hr⟩
    · obtain ⟨before, event', after, zs', ws, rfl, rfl, hm⟩ := ih hr
      refine ⟨event :: before, event', after, zs', ws, rfl, ?_, hm⟩
      rw [history, List.append_assoc]
    · cases ws with
      | nil =>
        have hr' : (c.handle event).console.history rest = [] ++ x :: ys := hr.symm
        obtain ⟨before, event', after, zs', ws, rfl, hz, hm'⟩ := ih hr'
        refine ⟨event :: before, event', after, zs', ws, rfl, ?_, hm'⟩
        rw [history, List.append_assoc, ← hz, hm, List.append_nil, List.append_nil]
      | cons y ws =>
        obtain ⟨rfl, -⟩ := List.cons.inj hr
        exact ⟨[], event, rest, xs, ws, rfl, rfl, hm⟩

theorem run_mem_states (c : Console) (events : List Event) : c.run events ∈ c.states events :=
  (path_history c events).mem_last

/-- What every change keeps, holds of every console that events lead through. -/
theorem forall_states {P : Console → Prop} {c : Console} (hc : P c)
    (hstep : ∀ {c d : Console} {change : Change}, P c → c.Moves change d → P d)
    (events : List Event) : ∀ d ∈ c.states events, P d := by
  have h := ((path_history c events).invariant hc hstep).2
  intro d hd
  rcases List.mem_cons.mp hd with rfl | hd
  · exact hc
  · obtain ⟨x, hx, rfl⟩ := List.mem_map.mp hd
    exact h x hx

/-- A new console with a program in a memory that is otherwise empty. -/
def ofProgram (image : List UInt8) (instructionsPerTick : Nat) : Console where
  machine := { Machine.initial (.ofSeed 0) with
    memory := Memory.zero.overwrite programStart image }
  settings := { instructionsPerTick }
  pad := .released
  fault := none

theorem memory_load {c : Console} {image : List UInt8} (h : image.length ≤ programCapacity) :
    (c.load image).console.machine.memory = c.machine.memory.overwrite programStart image := by
  rw [load_of_le h]

/-! ## Events other than ticks -/

/-- What a machine becomes by an event other than a tick. -/
inductive Touched (m : Machine) : Machine → Prop
  | alone : Touched m m
  | loaded (image : List UInt8) :
      Touched m { m with memory := m.memory.overwrite programStart image }
  | delivered {x : UInt8} (key : UInt8) (h : m.awaiting = some x) :
      Touched m { m with registers := m.registers.setNumbered x key, awaiting := none }

theorem fault_handle {c : Console} {event : Event} (h : event ≠ .tick) :
    (c.handle event).console.fault = c.fault := by
  cases event with
  | tick => exact absurd rfl h
  | load image =>
    simp only [handle, load]
    split <;> rfl
  | loadFrom source =>
    simp only [handle, loadFrom, load]
    split
    · split <;> rfl
    · rfl
  | press key =>
    simp only [handle, press, deliver]
    split <;> rfl
  | deliver key =>
    simp only [handle, deliver]
    split <;> rfl
  | release | volume => rfl

/-- All that other events than ticks signal is the volume. -/
theorem gain_of_mem_signals {c : Console} {event : Event} (h : event ≠ .tick) {signal : Signal}
    (hs : signal ∈ (c.handle event).signals) : ∃ loudness, signal = .gain loudness := by
  cases event with
  | tick => exact absurd rfl h
  | load image =>
    simp only [handle, load] at hs
    split at hs <;> cases hs
  | loadFrom source =>
    simp only [handle, loadFrom, load] at hs
    split at hs
    · split at hs <;> cases hs
    · cases hs
  | volume percent => exact ⟨_, List.mem_singleton.mp hs⟩
  | press | release | deliver => cases hs

theorem touched_load (c : Console) (image : List UInt8) :
    Touched c.machine (c.load image).console.machine := by
  by_cases h : image.length ≤ programCapacity
  · rw [load_of_le h]
    exact .loaded image
  · rw [load_of_lt (Nat.lt_of_not_le h)]
    exact .alone

theorem touched_deliver (c : Console) (key : UInt8) :
    Touched c.machine (c.deliver key).machine := by
  unfold deliver
  cases hx : c.machine.awaiting with
  | none => exact .alone
  | some x => exact .delivered key hx

theorem touched_handle {c : Console} {event : Event} (h : event ≠ .tick) :
    Touched c.machine (c.handle event).console.machine := by
  cases event with
  | tick => exact absurd rfl h
  | load image => exact touched_load c image
  | loadFrom source =>
    show Touched c.machine (c.loadFrom source).console.machine
    unfold loadFrom
    cases Image.ofReadings source with
    | ok image => exact touched_load c image
    | error cause => exact .alone
  | press key => exact touched_deliver { c with pad := c.pad.press key } key
  | deliver key => exact touched_deliver c key
  | release | volume => exact .alone

end Console

end ChipEight
