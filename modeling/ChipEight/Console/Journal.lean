import ChipEight.Console

/-!
# The journal of a console

Notes on what a console and the devices around it do, for whoever watches them. A note is data;
`Note.level` and `Note.text` render it. `Console.notes` gives the notes of an event from the
console that takes it.
-/

namespace ChipEight

/-- How much a note matters. -/
inductive Level where
  | error
  | debug
  | trace
deriving DecidableEq

/-- The name of a level. -/
def Level.name : Level → String
  | .error => "ERROR"
  | .debug => "DEBUG"
  | .trace => "TRACE"

/-- Something worth knowing about a console. -/
inductive Note where
  /-- an image of a size was copied into memory -/
  | loaded (size : Nat)
  /-- a word was fetched -/
  | fetched (word : UInt16) (registers : Registers) (index counter : UInt16)
  /-- a register awaits a key -/
  | pausing (x : Register)
  /-- a key was delivered to a register -/
  | resuming (key x : UInt8)
  /-- a fault halted the console with its counter at an address -/
  | halting (counter : UInt16) (cause : Fault)
  /-- a session was disposed of -/
  | disposing
  /-- a buzzer was opened at a number of samples in a second -/
  | soundOpened (rate : Nat)
  /-- a frame could not be drawn for want of columns or rows -/
  | unpainted
deriving DecidableEq

namespace Note

def level : Note → Level
  | .fetched .. => .trace
  | .halting .. => .error
  | .unpainted => .error
  | _ => .debug

/-- The registers as two digits each, in order. -/
def registersText (registers : Registers) : String :=
  ", ".intercalate (registers.toList.map fun byte => Hex.upper 2 byte.toNat)

def text : Note → String
  | .loaded size => s!"loaded {size} byte ROM at 0x{Hex.upper 3 programStart}"
  | .fetched word registers index counter =>
    s!"{Hex.upper 4 word.toNat} v[{registersText registers}] " ++
      s!"i{Hex.upper 4 index.toNat} pc{Hex.upper 4 counter.toNat}"
  | .pausing x => s!"pausing until a key is pressed for V{Hex.upper 1 x}"
  | .resuming key x => s!"resuming with key {Hex.upper 1 key.toNat} in V{Hex.upper 1 x.toNat}"
  | .halting counter cause => s!"halting at pc 0x{Hex.upper 4 counter.toNat}: {cause.message}"
  | .disposing => "disposing drive loop"
  | .soundOpened rate => s!"opened audio device at {rate} Hz"
  | .unpainted => "unable to render frame: SDL error: Texture dimensions can't be 0"

end Note

namespace Machine

/-- The notes on fetching a word at a machine and carrying it out. -/
def stepNotes (m : Machine) : List Note :=
  match m.fetch with
  | .error _ => []
  | .ok word =>
    .fetched word m.registers m.index m.counter ::
      match Instruction.ofWord word with
      | .awaitKey x => [.pausing x]
      | _ => []

end Machine

namespace Console

/-- The note on the fault that ends the batch of a tick. -/
def haltNotes (c : Console) : List Note :=
  if c.fault.isSome || c.awaitsKey then []
  else
    match c.runBatch with
    | .done _ => []
    | .halted cause m => [.halting m.counter cause]

/-- The notes on a tick: what its batch fetches, and the fault that ends the batch. -/
def tickNotes (c : Console) : List Note :=
  (c.fetched .tick).flatMap Machine.stepNotes ++ c.haltNotes

/-- The note on loading an image that fits. -/
def loadNotes (image : List UInt8) : List Note :=
  if image.length ≤ programCapacity then [.loaded image.length] else []

/-- The note on a key that a register awaits. -/
def deliverNotes (c : Console) (key : UInt8) : List Note :=
  match c.machine.awaiting with
  | none => []
  | some x => [.resuming key x]

/-- The notes on an event. -/
def notes (c : Console) : Event → List Note
  | .tick => c.tickNotes
  | .load image => loadNotes image
  | .loadFrom source =>
    match Image.ofReadings source with
    | .ok image => loadNotes image
    | .error _ => []
  | .press key => c.deliverNotes key
  | .release _ => []
  | .deliver key => c.deliverNotes key
  | .volume _ => []

/-- The notes on events, in order. -/
def journal (c : Console) : List Event → List Note
  | [] => []
  | event :: rest => c.notes event ++ (c.handle event).console.journal rest

end Console

end ChipEight
