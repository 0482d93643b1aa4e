import ChipEight.Proofs.History
import ChipEight.Session

/-!
# A session is a filter in front of its console

What a session lets through depends on its pace and on whether it was disposed of, and never on
what the console makes of it. `Session.filtered` turns the events of a session into what a bare
console would have to be given instead, and it knows no console.

* `run_of_not_disposed`, `run_of_disposed`: a session before and after its disposal
* `filtered_append`: what earlier events leave of the filter for later ones
* `filters_until_disposal`: both, with the answers to polls and with what disposal ends
-/

namespace ChipEight

/-- What comes out of a session: an event for the console, or the end of the tone. -/
inductive Passage where
  | event (event : Event)
  | silence

namespace Console

/-- What a bare console makes of a passage. The end of the tone concerns the tone alone. -/
def serve (c : Console) : Passage → Reply
  | .event event => c.handle event
  | .silence => ⟨.ok (), c, [.toneOff]⟩

/-- The console after passages, and all their signals in order. -/
def serveAll (c : Console) : List Passage → Console × List Signal
  | [] => (c, [])
  | passage :: rest =>
    let reply := c.serve passage
    let later := reply.console.serveAll rest
    (later.1, reply.signals ++ later.2)

end Console

namespace Session

/-- Whether an event disposes of a session. -/
def Event.isDispose : Event → Bool
  | .dispose => true
  | _ => false

/-- The passage of a change of volume. -/
def Event.volume? : Event → Option Passage
  | .volume percent => some (.event (.volume percent))
  | _ => none

/-- What comes out of a session with a pace. Up to the first disposal these are the ticks that are
due, the keys that have a place on the keypad and the changes of volume. The first disposal ends
the tone, and after it only changes of volume come out. -/
def filtered (pace : Pace) : List Event → List Passage
  | [] => []
  | .poll now :: rest =>
    if pace.isDue now then .event .tick :: filtered { pace with last := some now } rest
    else filtered pace rest
  | .keyDown none :: rest => filtered pace rest
  | .keyDown (some key) :: rest => .event (.press key) :: filtered pace rest
  | .keyUp none :: rest => filtered pace rest
  | .keyUp (some key) :: rest => .event (.release key) :: filtered pace rest
  | .volume percent :: rest => .event (.volume percent) :: filtered pace rest
  | .dispose :: rest => .silence :: rest.filterMap Event.volume?

/-- A pace after the polls among events, up to the first disposal. -/
def paced (pace : Pace) : List Event → Pace
  | [] => pace
  | .poll now :: rest => paced (pace.poll now).2 rest
  | .dispose :: _ => pace
  | _ :: rest => paced pace rest

variable {s : Session} {now : Nat}

/-! ## Single events -/

theorem poll_of_isDue (hs : s.disposed = false) (hp : s.pace.isDue now = true) :
    s.poll now = ⟨some (s.console.tick.result.map fun _ => true),
      { s with console := s.console.tick.console, pace := { s.pace with last := some now } },
      s.console.tick.signals⟩ := by
  unfold poll
  rw [hs, Pace.poll_of_isDue hp]
  rfl

theorem poll_of_not_isDue (h : s.disposed = true ∨ s.pace.isDue now = false) :
    s.poll now = ⟨some (.ok false), s, []⟩ := by
  unfold poll
  cases hs : s.disposed with
  | true => rfl
  | false =>
    rw [hs] at h
    rw [Pace.poll_of_not_isDue (h.resolve_left nofun)]
    rfl

theorem key_of_not_disposed (hs : s.disposed = false) (event : UInt8 → ChipEight.Event)
    (key : UInt8) : s.key event (some key) = s.pass (event key) := by
  simp [Session.key, hs]

theorem handle_dispose (hs : s.disposed = false) :
    s.handle .dispose = ⟨none, { s with disposed := true }, [.toneOff]⟩ := by
  rw [handle, dispose, hs]
  rfl

/-- A session that was disposed of only passes changes of volume on, and those change no console. -/
theorem handle_of_disposed (hs : s.disposed = true) (event : Event) :
    (s.handle event).session = s ∧ (s.handle event).answer ≠ some (.ok true) ∧
      (s.console, (s.handle event).signals) = s.console.serveAll event.volume?.toList := by
  cases event with
  | poll now =>
    rw [handle, poll_of_not_isDue (.inl hs)]
    exact ⟨rfl, nofun, rfl⟩
  | keyDown key | keyUp key =>
    cases key with
    | none => exact ⟨rfl, nofun, rfl⟩
    | some key => simp [handle, Session.key, hs, ignore, Event.volume?, Console.serveAll]
  | volume percent => exact ⟨rfl, nofun, rfl⟩
  | dispose => simp [handle, dispose, hs, ignore, Event.volume?, Console.serveAll]

/-! ## Runs -/

theorem serveAll_append (c : Console) (before after : List Passage) :
    c.serveAll (before ++ after) =
      (((c.serveAll before).1.serveAll after).1,
        (c.serveAll before).2 ++ ((c.serveAll before).1.serveAll after).2) := by
  induction before generalizing c with
  | nil => rfl
  | cons passage rest ih => simp [Console.serveAll, ih]

/-- After its disposal a session is what it was, and its signals are those of its changes of
volume. -/
theorem run_of_disposed (hs : s.disposed = true) (events : List Event) :
    s.run events = s ∧
      (s.console, s.signals events) = s.console.serveAll (events.filterMap Event.volume?) := by
  induction events with
  | nil => exact ⟨rfl, rfl⟩
  | cons event rest ih =>
    obtain ⟨hsession, -, hpassed⟩ := handle_of_disposed hs event
    obtain ⟨hrun, hrest⟩ := ih
    have hsplit : (event :: rest).filterMap Event.volume? =
        event.volume?.toList ++ rest.filterMap Event.volume? := by
      cases event <;> rfl
    refine ⟨?_, ?_⟩
    · show (s.handle event).session.run rest = s
      rw [hsession, hrun]
    · rw [hsplit, serveAll_append, ← hpassed, ← hrest, signals, hsession]

/-- A passage goes before those that later events give. -/
theorem serveAll_cons {c : Console} {p : Passage} {rest : List Passage}
    {later : Console × List Signal} (h : later = (c.serve p).console.serveAll rest) :
    (later.1, (c.serve p).signals ++ later.2) = c.serveAll (p :: rest) := by
  rw [h]
  rfl

/-- A session does what its filter says, whatever its console makes of it. -/
theorem run_of_not_disposed (hs : s.disposed = false) (events : List Event) :
    ((s.run events).console, s.signals events) = s.console.serveAll (filtered s.pace events) ∧
      (s.run events).pace = paced s.pace events ∧
      (s.run events).disposed = events.any Event.isDispose := by
  induction events generalizing s with
  | nil => exact ⟨rfl, rfl, hs⟩
  | cons event rest ih =>
    show (((s.handle event).session.run rest).console,
      (s.handle event).signals ++ (s.handle event).session.signals rest) = _ ∧
      ((s.handle event).session.run rest).pace = _ ∧
      ((s.handle event).session.run rest).disposed = _
    cases event with
    | poll now =>
      rw [handle, filtered, paced]
      cases hp : s.pace.isDue now with
      | true =>
        rw [poll_of_isDue hs hp, Pace.poll_of_isDue hp]
        obtain ⟨hrun, hpace, hdisposed⟩ := ih (s := { s with
          console := s.console.tick.console, pace := { s.pace with last := some now } }) hs
        exact ⟨serveAll_cons (p := .event .tick) hrun, hpace, hdisposed⟩
      | false =>
        rw [poll_of_not_isDue (.inr hp), Pace.poll_of_not_isDue hp]
        exact ih hs
    | keyDown key =>
      cases key with
      | none => exact ih hs
      | some key =>
        rw [handle, key_of_not_disposed hs]
        obtain ⟨hrun, hpace, hdisposed⟩ := ih (s := { s with console := s.console.press key }) hs
        exact ⟨serveAll_cons (p := .event (.press key)) hrun, hpace, hdisposed⟩
    | keyUp key =>
      cases key with
      | none => exact ih hs
      | some key =>
        rw [handle, key_of_not_disposed hs]
        obtain ⟨hrun, hpace, hdisposed⟩ := ih (s := { s with console := s.console.release key }) hs
        exact ⟨serveAll_cons (p := .event (.release key)) hrun, hpace, hdisposed⟩
    | volume percent =>
      obtain ⟨hrun, hpace, hdisposed⟩ := ih hs
      exact ⟨serveAll_cons (p := .event (.volume percent)) hrun, hpace, hdisposed⟩
    | dispose =>
      rw [handle_dispose hs]
      obtain ⟨hrun, hrest⟩ := run_of_disposed (s := { s with disposed := true }) rfl rest
      rw [hrun]
      exact ⟨serveAll_cons (p := .silence) hrest, rfl, rfl⟩

/-- What earlier events leave of the filter for later ones. -/
theorem filtered_append (pace : Pace) (before after : List Event) :
    filtered pace (before ++ after) =
      filtered pace before ++
        if before.any Event.isDispose then after.filterMap Event.volume?
        else filtered (paced pace before) after := by
  induction before generalizing pace with
  | nil => rfl
  | cons event rest ih =>
    cases event with
    | poll now =>
      rw [List.cons_append, filtered, filtered, paced]
      cases hp : pace.isDue now with
      | true =>
        rw [Pace.poll_of_isDue hp]
        exact congrArg (List.cons _) (ih _)
      | false =>
        rw [Pace.poll_of_not_isDue hp]
        exact ih _
    | keyDown key | keyUp key =>
      cases key with
      | none => exact ih pace
      | some key => exact congrArg (List.cons _) (ih pace)
    | volume percent => exact congrArg (List.cons _) (ih pace)
    | dispose => exact congrArg (List.cons _) (List.filterMap_append ..)

/-- A poll gives a tick if it is due and nothing was disposed of before it, and nothing otherwise. -/
theorem filtered_append_poll (hs : s.disposed = false) (before : List Event) (now : Nat) :
    let t := s.run before
    filtered s.pace (before ++ [.poll now]) = filtered s.pace before ++
      if t.disposed = false ∧ t.pace.isDue now = true then [Passage.event .tick] else [] := by
  intro t
  obtain ⟨-, hpace, hdisposed⟩ := run_of_not_disposed hs before
  rw [filtered_append, ← hpace, ← hdisposed]
  refine congrArg _ ?_
  show (if t.disposed then [] else if t.pace.isDue now then [Passage.event .tick] else []) = _
  cases t.disposed <;> cases t.pace.isDue now <;> rfl

/-- Changes of volume signal nothing else. -/
theorem gain_of_mem_serveAll {c : Console} {events : List Event} {signal : Signal}
    (h : signal ∈ (c.serveAll (events.filterMap Event.volume?)).2) :
    ∃ loudness, signal = .gain loudness := by
  induction events with
  | nil => cases h
  | cons event rest ih =>
    cases event with
    | volume percent =>
      rcases List.mem_cons.mp h with rfl | h
      · exact ⟨_, rfl⟩
      · exact ih h
    | poll | keyDown | keyUp | dispose => exact ih h

/-- A session is a filter in front of its console.

* Its console ends as a bare console that is given what the filter lets through, and the signals
  are the same.
* A poll that is due, before any disposal, is a tick: it is answered by whether the tick
  succeeded, and its time is used up either way. Every other poll is answered by `false` and
  reaches nothing.
* After a disposal, neither the console nor the pace ever changes again, and nothing is signalled
  but changes of volume. -/
theorem filters_until_disposal (c : Console) (p : Pace) (events : List Event) :
    let s := start c p
    ((s.run events).console, s.signals events) = c.serveAll (filtered p events) ∧
    (s.run events).pace = paced p events ∧
    (s.run events).disposed = events.any Event.isDispose ∧
    (∀ before now after, events = before ++ .poll now :: after →
      let t := s.run before
      let reply := t.handle (.poll now)
      let tick := t.console.tick
      (t.disposed = false → t.pace.isDue now = true →
        filtered p (before ++ [.poll now]) = filtered p before ++ [.event .tick] ∧
        (reply.answer = some (.ok true) ↔ tick.result = .ok ()) ∧
        (∀ cause, reply.answer = some (.error cause) ↔ tick.result = .error cause) ∧
        reply.session.pace = { t.pace with last := some now }) ∧
      (t.disposed = true ∨ t.pace.isDue now = false →
        filtered p (before ++ [.poll now]) = filtered p before ∧
        reply = ⟨some (.ok false), t, []⟩)) ∧
    ∀ before after, events = before ++ .dispose :: after →
      let t := s.run (before ++ [.dispose])
      (s.run events).console = t.console ∧ (s.run events).pace = t.pace ∧
      ∀ signal ∈ t.signals after, ∃ loudness, signal = .gain loudness := by
  intro s
  have hopen : s.disposed = false := rfl
  obtain ⟨hconsole, hpace, hdisposed⟩ := run_of_not_disposed hopen events
  refine ⟨hconsole, hpace, hdisposed, ?_, ?_⟩
  · intro before now after _ t reply tick
    have hpoll : filtered p (before ++ [.poll now]) = _ := filtered_append_poll hopen before now
    refine ⟨?_, ?_⟩
    · intro hs hp
      have hreply : reply = _ := poll_of_isDue hs hp
      rw [hpoll, if_pos ⟨hs, hp⟩, hreply]
      refine ⟨rfl, ?_, ?_, rfl⟩
      · show some (tick.result.map _) = _ ↔ _
        cases tick.result with
        | ok => exact ⟨fun _ => rfl, fun _ => rfl⟩
        | error cause => exact ⟨nofun, nofun⟩
      · intro cause
        show some (tick.result.map _) = _ ↔ _
        cases tick.result with
        | ok => exact ⟨nofun, nofun⟩
        | error cause' => simp [Except.map]
    · intro h
      rw [hpoll, if_neg, List.append_nil]
      · exact ⟨rfl, poll_of_not_isDue h⟩
      · rintro ⟨hs, hp⟩
        rcases h with h | h
        · exact absurd (hs.symm.trans h) nofun
        · exact absurd (hp.symm.trans h) nofun
  · rintro before after rfl t
    have ht : t.disposed = true := by
      obtain ⟨-, -, h⟩ := run_of_not_disposed hopen (before ++ [.dispose])
      rw [h, List.any_append]
      exact Bool.or_true _
    have hafter : s.run (before ++ .dispose :: after) = t.run after := by
      rw [← run_append, List.append_assoc]
      rfl
    obtain ⟨hsame, hsignals⟩ := run_of_disposed ht after
    rw [hafter, hsame]
    refine ⟨rfl, rfl, fun signal h => ?_⟩
    rw [show t.signals after = _ from congrArg Prod.snd hsignals] at h
    exact gain_of_mem_serveAll h

/-- A program that returns from no call, in a session that is polled too early and then disposed
of twice. -/
theorem filters_until_disposal_astray :
    let c := Console.ofProgram [0x00, 0xEE] 1
    let s := start c (.every 16)
    let before : List Event := [.poll 0, .poll 5, .keyDown (some 0x3)]
    let after : List Event := [.poll 100, .keyUp (some 0x3), .volume 50, .dispose]
    let events := before ++ .dispose :: after
    let t := s.run [.poll 0]
    filtered (.every 16) events =
        [.event .tick, .event (.press 0x3), .silence, .event (.volume 50)] ∧
      (s.handle (.poll 0)).answer = some (.error .emptyCallStack) ∧
      t.pace.last = some 0 ∧ t.pace.isDue 5 = false ∧
      t.handle (.poll 5) = ⟨some (.ok false), t, []⟩ ∧
      (s.run events).console = (s.run (before ++ [.dispose])).console ∧
      ∀ signal ∈ (s.run (before ++ [.dispose])).signals after,
        ∃ loudness, signal = .gain loudness := by
  intro c s before after events t
  have hm : c.machine.memory = Memory.zero.overwrite programStart [0x00, 0xEE] := rfl
  have hf : c.machine.fetch = .ok 0x00EE :=
    Machine.fetch_of_image (k := 0) hm rfl (by decide) (by decide)
  have htick : c.tick.result = .error .emptyCallStack := by
    have hb : c.runBatch = .halted .emptyCallStack c.machine.past :=
      Machine.batch_of_obstacle hf rfl
    rw [Console.tick_of_runs rfl rfl, hb]
  obtain ⟨-, -, -, hpolls, hdisposed⟩ := filters_until_disposal c (.every 16) events
  obtain ⟨hfirst, -⟩ := hpolls [] 0 _ rfl
  obtain ⟨-, -, herror, hlast⟩ := hfirst rfl rfl
  obtain ⟨-, hsecond⟩ := hpolls [.poll 0] 5 _ rfl
  have hpace : t.pace = { interval := 16, last := some 0 } := hlast
  have hearly : t.pace.isDue 5 = false := by
    rw [hpace]
    rfl
  obtain ⟨hconsole, -, hsignals⟩ := hdisposed before after rfl
  exact ⟨rfl, (herror _).mpr htick, congrArg Pace.last hpace, hearly, (hsecond (.inr hearly)).2,
    hconsole, hsignals⟩

end Session

end ChipEight
