import ChipEight.Image
import ChipEight.Machine.Batch

/-!
# The console

A console is a machine with its settings and its keypad, and with the fault that stopped it, if
one did. It takes events and answers each with a `Reply`: what became of it, the console
afterwards, and the signals that go out to the screen and the tone generator.

* A tick carries out a batch, lets the timers run once, and then switches the tone and shows the
  frame. While a key is awaited the batch and the timers rest and the signals still go out.
* A fault in a batch is kept. The tick that met it and all later ones report it and do nothing.
* A key press goes to the keypad and to the register that awaits a key, if one does.
-/

namespace ChipEight

/-- What a console tells the devices around it. -/
inductive Signal where
  /-- sound the tone; no news if it sounds already -/
  | toneOn (frequency : UInt32)
  /-- end the tone; no news if it is silent -/
  | toneOff
  /-- set the loudness of the tone, from 0 to 1 -/
  | gain (loudness : Float32)
  /-- put a frame on the screen -/
  | picture (frame : Frame)

/-- What can happen to a console. -/
inductive Event where
  | tick
  | load (image : List UInt8)
  | loadFrom (source : List Reading)
  /-- a key goes down -/
  | press (key : UInt8)
  /-- a key comes up -/
  | release (key : UInt8)
  /-- the awaited key, whatever the keypad says -/
  | deliver (key : UInt8)
  /-- the volume is set, in percent -/
  | volume (percent : UInt8)

/-- A machine with all that its program depends on. -/
structure Console where
  machine : Machine
  settings : Settings
  pad : HexPad
  fault : Option Fault

/-- What a console makes of an event. -/
structure Reply where
  result : Except Fault Unit
  console : Console
  signals : List Signal

namespace Console

/-- A new console that draws its random bytes from a source. -/
def start (settings : Settings) (random : Source) : Console where
  machine := .initial random
  settings
  pad := .released
  fault := none

/-- A new console whose random bytes come from the seed in its settings, or from seed 0. -/
def new (settings : Settings) : Console :=
  start settings (.ofSeed (settings.seed.getD 0))

/-- Whether a program waits for a key. -/
def awaitsKey (c : Console) : Bool := c.machine.awaiting.isSome

/-- The signals at the end of a tick: the tone sounds as long as the sound timer runs. -/
def output (c : Console) : List Signal :=
  [if 0 < c.machine.sound then .toneOn c.settings.toneFrequency else .toneOff,
    .picture c.machine.frame]

/-- The batch of a tick. -/
def runBatch (c : Console) : Outcome :=
  c.machine.batch c.settings c.pad c.settings.instructionsPerTick

/-- One tick. -/
def tick (c : Console) : Reply :=
  match c.fault with
  | some cause => ⟨.error cause, c, []⟩
  | none =>
    if c.awaitsKey then
      ⟨.ok (), c, c.output⟩
    else
      match c.runBatch with
      | .done m =>
        let c := { c with machine := { m with toState := m.toState.advanceTimers } }
        ⟨.ok (), c, c.output⟩
      | .halted cause m => ⟨.error cause, { c with machine := m, fault := some cause }, []⟩

/-- Copies an image into memory. The registers, the counter and the rest stay as they are. -/
def load (c : Console) (image : List UInt8) : Reply :=
  match Image.load image c.machine with
  | .ok machine => ⟨.ok (), { c with machine }, []⟩
  | .error cause => ⟨.error cause, c, []⟩

/-- Copies what a source holds into memory. -/
def loadFrom (c : Console) (source : List Reading) : Reply :=
  match Image.ofReadings source with
  | .ok image => c.load image
  | .error cause => ⟨.error cause, c, []⟩

/-- Writes a key to the register that awaits one. Without such a register nothing happens. -/
def deliver (c : Console) (key : UInt8) : Console :=
  match c.machine.awaiting with
  | none => c
  | some x =>
    let registers := c.machine.registers.setNumbered x key
    { c with machine := { c.machine with registers, awaiting := none } }

/-- Puts a key down and delivers it. -/
def press (c : Console) (key : UInt8) : Console :=
  { c with pad := c.pad.press key }.deliver key

/-- Lets a key up. -/
def release (c : Console) (key : UInt8) : Console := { c with pad := c.pad.release key }

/-- The loudness of a volume in percent. Anything over 100 counts as 100. -/
def loudness (percent : UInt8) : Float32 := (min percent 100).toFloat32 / 100

/-- What a console makes of an event. -/
def handle (c : Console) : Event → Reply
  | .tick => c.tick
  | .load image => c.load image
  | .loadFrom source => c.loadFrom source
  | .press key => ⟨.ok (), c.press key, []⟩
  | .release key => ⟨.ok (), c.release key, []⟩
  | .deliver key => ⟨.ok (), c.deliver key, []⟩
  | .volume percent => ⟨.ok (), c, [.gain (loudness percent)]⟩

/-- The machines at which an event has words fetched, in order. Only a tick has any. -/
def fetched (c : Console) : Event → List Machine
  | .tick =>
    if c.fault.isSome || c.awaitsKey then []
    else c.machine.trail c.settings c.pad c.settings.instructionsPerTick
  | _ => []

/-- The console after events. -/
def run (c : Console) (events : List Event) : Console :=
  events.foldl (fun c event => (c.handle event).console) c

/-- The signals of events, in order. -/
def signals (c : Console) : List Event → List Signal
  | [] => []
  | event :: rest => (c.handle event).signals ++ (c.handle event).console.signals rest

/-- No event changes the settings. -/
@[simp] theorem settings_handle (c : Console) (event : Event) :
    (c.handle event).console.settings = c.settings := by
  cases event with
  | tick =>
    simp only [handle, tick]
    split
    · rfl
    · split
      · rfl
      · split <;> rfl
  | load image =>
    simp only [handle, load]
    split <;> rfl
  | loadFrom source =>
    simp only [handle, loadFrom, load]
    split
    · split <;> rfl
    · rfl
  | press key =>
    simp only [handle, press, deliver]
    split <;> rfl
  | release key => rfl
  | deliver key =>
    simp only [handle, deliver]
    split <;> rfl
  | volume percent => rfl

theorem settings_run (c : Console) (events : List Event) :
    (c.run events).settings = c.settings := by
  induction events generalizing c with
  | nil => rfl
  | cons event rest ih => exact (ih _).trans (settings_handle c event)

theorem load_of_le {c : Console} {image : List UInt8} (h : image.length ≤ programCapacity) :
    c.load image =
      ⟨.ok (), { c with machine :=
        { c.machine with memory := c.machine.memory.overwrite programStart image } }, []⟩ := by
  rw [load, Image.load, if_pos h]

theorem load_of_lt {c : Console} {image : List UInt8} (h : programCapacity < image.length) :
    c.load image = ⟨.error (.imageTooLarge image.length programCapacity), c, []⟩ := by
  rw [load, Image.load, if_neg (Nat.not_le.mpr h)]

theorem tick_of_fault {c : Console} {cause : Fault} (h : c.fault = some cause) :
    c.tick = ⟨.error cause, c, []⟩ := by
  rw [tick, h]

theorem tick_of_awaitsKey {c : Console} (h : c.fault = none) (hk : c.awaitsKey = true) :
    c.tick = ⟨.ok (), c, c.output⟩ := by
  rw [tick, h]
  simp [hk]

theorem run_append (c : Console) (before after : List Event) :
    c.run (before ++ after) = (c.run before).run after :=
  List.foldl_append

end Console

end ChipEight
