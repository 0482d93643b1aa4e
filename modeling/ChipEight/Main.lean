import ChipEight.CommandLine
import ChipEight.Keyboard
import ChipEight.Picture.Text
import ChipEight.Session

/-!
# The program

A host for a terminal. Each line of input is one interval of the machine's pace: the keys named on
it go down, the machine ticks, its frame is printed, and the keys come up again. The end of the
input ends the session.
-/

namespace ChipEight.Main

/-- What `--help` prints. -/
def usage : String :=
  "Usage: chip-eight [OPTIONS] <ROM>\n\n" ++
  "Arguments:\n" ++
  "  <ROM>  Program image to load at 0x200\n\n" ++
  "Options:\n" ++
  "      --speed <SPEED>        Instructions executed per 60 Hz tick [default: 10]\n" ++
  "      --volume <VOLUME>      Tone volume in percent [default: 50]\n" ++
  "      --scale <SCALE>        Screen pixels per display cell [default: 10]\n" ++
  "      --stack-limit <DEPTH>  Maximum call depth; unbounded when omitted\n" ++
  "      --corrected            Report carries from 8xy4 and draw Cxkk from the full byte range\n" ++
  "      --seed <SEED>          Seed for Cxkk, for repeatable runs\n" ++
  "  -h, --help                 Print help\n" ++
  "  -V, --version              Print version"

/-- What `--version` prints. -/
def versionText : String := "chip-eight 0.1.0"

/-- What a command line that yields no request is told. -/
def complaint : CommandLine.Problem → String
  | .help => usage
  | .version => versionText
  | .unknownArgument => "error: unexpected argument found"
  | .missingValue => "error: a value is required but none was supplied"
  | .badValue => "error: invalid value"
  | .repeated => "error: an argument cannot be used multiple times"
  | .unwantedValue => "error: unexpected value for an argument that takes none"
  | .missingImage => "error: the program image was not provided"

/-- The key that a character stands for. -/
def keyOfChar (c : Char) : Key :=
  if c.isDigit then .digit (c.toNat - '0'.toNat) else .letter c.toUpper

/-- The keys of the keypad that a line names. -/
def padKeys (line : String) : List UInt8 := line.toList.filterMap fun c => (keyOfChar c).onPad

/-- The session after the keys of a line went down. -/
def keysDown (s : Session) (keys : List UInt8) : Session :=
  s.run (keys.map fun k => .keyDown (some k))

/-- The session after the keys of a line came up. -/
def keysUp (s : Session) (keys : List UInt8) : Session :=
  s.run (keys.map fun k => .keyUp (some k))

/-- Serves a session until the input ends or the machine halts. -/
partial def serve (input : IO.FS.Stream) (now : Nat) (s : Session) : IO UInt32 := do
  let line ← input.getLine
  if line.isEmpty then return 0
  let keys := padKeys line
  let reply := (keysDown s keys).poll now
  match reply.answer with
  | some (.error cause) =>
    IO.eprintln cause.message
    return 1
  | _ =>
    IO.println reply.session.console.machine.frame.text
    serve input (now + s.pace.interval) (keysUp reply.session keys)

/-- What reading a file comes to. -/
def readImage (path : String) : IO (List Reading) := do
  try
    return [.bytes (← IO.FS.readBinFile path).toList]
  catch e =>
    return [.failed (toString e)]

/-- Loads the image of a request and serves a session with it. -/
def play (request : CommandLine.Request) : IO UInt32 := do
  let seed ← match request.settings.seed with
    | some seed => pure seed
    | none => pure (UInt64.ofNat (← IO.rand 0 0xFFFFFFFFFFFFFFFF))
  let console := Console.start request.settings (.ofSeed seed)
  let loaded := console.loadFrom (← readImage request.image)
  match loaded.result with
  | .error cause =>
    IO.eprintln cause.message
    return 1
  | .ok _ => serve (← IO.getStdin) 0 (.start loaded.console .perTick)

end ChipEight.Main

def main (args : List String) : IO UInt32 := do
  match ChipEight.CommandLine.parse args with
  | .ok request => ChipEight.Main.play request
  | .error problem =>
    match problem with
    | .help | .version =>
      IO.println (ChipEight.Main.complaint problem)
      return 0
    | _ =>
      IO.eprintln (ChipEight.Main.complaint problem)
      return 2
