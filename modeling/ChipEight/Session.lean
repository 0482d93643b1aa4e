import ChipEight.Console.Journal
import ChipEight.Pace

/-!
# Sessions

A session stands between a console and its host. The host polls it as often as it likes, and the
console ticks at most once in an interval. Once disposed of, a session lets no tick and no key
through, and its tone is off.
-/

namespace ChipEight

/-- A console that is polled at a pace. -/
structure Session where
  console : Console
  pace : Pace
  disposed : Bool

namespace Session

/-- What a host does with a session. A key without a place on the keypad is `none`. -/
inductive Event where
  | poll (now : Nat)
  | keyDown (key : Option UInt8)
  | keyUp (key : Option UInt8)
  | volume (percent : UInt8)
  | dispose

/-- What a session makes of an event. The answer is `none` for all but polls; for a poll it is
whether the console ticked, or the fault of that tick. -/
structure Reply where
  answer : Option (Except Fault Bool)
  session : Session
  signals : List Signal

/-- A new session. -/
def start (console : Console) (pace : Pace) : Session := ⟨console, pace, false⟩

/-- Passes an event on to the console. -/
def pass (s : Session) (event : ChipEight.Event) : Reply :=
  let reply := s.console.handle event
  ⟨none, { s with console := reply.console }, reply.signals⟩

/-- Does nothing. -/
def ignore (s : Session) : Reply := ⟨none, s, []⟩

/-- Ticks the console if a tick is due. A tick that fails has used up its time all the same. -/
def poll (s : Session) (now : Nat) : Reply :=
  if s.disposed then
    ⟨some (.ok false), s, []⟩
  else
    match s.pace.poll now with
    | (false, _) => ⟨some (.ok false), s, []⟩
    | (true, pace) =>
      let reply := s.console.tick
      ⟨some (reply.result.map fun _ => true), { s with console := reply.console, pace },
        reply.signals⟩

/-- What a key on the keypad does, until the session is disposed of. -/
def key (s : Session) (event : UInt8 → ChipEight.Event) : Option UInt8 → Reply
  | none => s.ignore
  | some k => if s.disposed then s.ignore else s.pass (event k)

/-- Ends the session and the tone. A second time it does nothing. -/
def dispose (s : Session) : Reply :=
  if s.disposed then s.ignore else ⟨none, { s with disposed := true }, [.toneOff]⟩

/-- What a session makes of an event. -/
def handle (s : Session) : Event → Reply
  | .poll now => s.poll now
  | .keyDown k => s.key .press k
  | .keyUp k => s.key .release k
  | .volume percent => s.pass (.volume percent)
  | .dispose => s.dispose

/-- The time that a host may rest before it polls again. -/
def idleTime (s : Session) (now : Nat) : Nat := s.pace.remaining now

/-- The event that reaches the console, if one does. -/
def passed? (s : Session) : Event → Option ChipEight.Event
  | .poll now => if !s.disposed && s.pace.isDue now then some .tick else none
  | .keyDown k => if s.disposed then none else k.map .press
  | .keyUp k => if s.disposed then none else k.map .release
  | .volume percent => some (.volume percent)
  | .dispose => none

/-- The notes on an event. -/
def notes (s : Session) (event : Event) : List Note :=
  match s.passed? event, event with
  | some inner, _ => s.console.notes inner
  | none, .dispose => if s.disposed then [] else [.disposing]
  | none, _ => []

/-- The session after events. -/
def run (s : Session) (events : List Event) : Session :=
  events.foldl (fun s event => (s.handle event).session) s

/-- The signals of events, in order. -/
def signals (s : Session) : List Event → List Signal
  | [] => []
  | event :: rest => (s.handle event).signals ++ (s.handle event).session.signals rest

theorem run_append (s : Session) (before after : List Event) :
    s.run (before ++ after) = (s.run before).run after :=
  List.foldl_append

end Session

end ChipEight
