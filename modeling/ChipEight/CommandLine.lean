import ChipEight.Settings

/-!
# The command line

A command line names one program image and may set options before and after it.

* `--name value` and `--name=value` set an option that takes a value
* `--corrected` is a flag; `-h`, `--help`, `-V` and `--version` ask for information
* after `--` every argument is the image; so is `-` anywhere

An image, and a value that is an argument of its own, are *held* and checked only when the next
thing is understood or the line ends. So the first problem is the one reported, but an argument
that is not understood at all is reported in place of what is held.

## Termination

`parseFrom` recurses on the arguments.
-/

namespace ChipEight.CommandLine

/-- An option that takes a number. -/
inductive Setting where
  | speed
  | volume
  | scale
  | stackLimit
  | seed
deriving DecidableEq

/-- A named option. -/
inductive Name where
  | setting (setting : Setting)
  | corrected
  | help
  | version
deriving DecidableEq

/-- Why a command line yields no request. -/
inductive Problem where
  /-- help is asked for -/
  | help
  /-- the version is asked for -/
  | version
  /-- an argument that means nothing, or a second image -/
  | unknownArgument
  /-- an option without its value, or an image without a name -/
  | missingValue
  /-- a value that is not a number, or not one that the option takes -/
  | badValue
  /-- an option that is given twice -/
  | repeated
  /-- a value for an option that takes none -/
  | unwantedValue
  /-- no image -/
  | missingImage
deriving DecidableEq

/-- What a command line asks for. -/
structure Request where
  image : String
  settings : Settings
  /-- volume of the tone in percent -/
  volume : UInt8
  /-- pixels along the side of a cell -/
  scale : Nat
deriving DecidableEq

/-! ## Numbers -/

/-- The value of decimal digits after a value. -/
def digitsFrom (value : Nat) : List Char → Option Nat
  | [] => some value
  | c :: rest =>
    if '0' ≤ c ∧ c ≤ '9' then digitsFrom (value * 10 + (c.toNat - '0'.toNat)) rest else none

/-- The value of at least one decimal digit and nothing else. -/
def digits? : List Char → Option Nat
  | [] => none
  | cs => digitsFrom 0 cs

/-- A number of 64 bits, perhaps after a plus sign. -/
def word? (cs : List Char) : Option Nat :=
  let value := match cs with
    | '+' :: rest => digits? rest
    | _ => digits? cs
  value.filter (· < 0x10000000000000000)

/-- A percentage, perhaps after a sign. The only negative number that is one is 0. -/
def percentage? (cs : List Char) : Option Nat :=
  match cs with
  | '+' :: rest => (digits? rest).filter (· ≤ 100)
  | '-' :: rest => (digits? rest).filter (· = 0)
  | _ => (digits? cs).filter (· ≤ 100)

namespace Setting

/-- The number that a text sets the option to. -/
def number? : Setting → List Char → Option Nat
  | .volume => percentage?
  | _ => word?

end Setting

/-! ## Names -/

/-- The option of a long name. -/
def long? : List Char → Option Name
  | ['s', 'p', 'e', 'e', 'd'] => some (.setting .speed)
  | ['v', 'o', 'l', 'u', 'm', 'e'] => some (.setting .volume)
  | ['s', 'c', 'a', 'l', 'e'] => some (.setting .scale)
  | ['s', 't', 'a', 'c', 'k', '-', 'l', 'i', 'm', 'i', 't'] => some (.setting .stackLimit)
  | ['s', 'e', 'e', 'd'] => some (.setting .seed)
  | ['c', 'o', 'r', 'r', 'e', 'c', 't', 'e', 'd'] => some .corrected
  | ['h', 'e', 'l', 'p'] => some .help
  | ['v', 'e', 'r', 's', 'i', 'o', 'n'] => some .version
  | _ => none

/-- The option of a short name. -/
def short? : Char → Option Name
  | 'h' => some .help
  | 'V' => some .version
  | _ => none

/-- An argument by its shape. -/
inductive Shape where
  /-- everything after it is the image -/
  | rest
  /-- a long name, perhaps with a value -/
  | long (name : List Char) (value : Option (List Char))
  /-- short names -/
  | short (first : Char)
  /-- anything else -/
  | plain
deriving DecidableEq

/-- Parts a long name from the value after its first `=`. -/
def attached (cs : List Char) : Shape :=
  match cs.dropWhile (· ≠ '=') with
  | [] => .long cs none
  | _ :: value => .long (cs.takeWhile (· ≠ '=')) (some value)

/-- The shape of an argument. -/
def shape : List Char → Shape
  | ['-', '-'] => .rest
  | '-' :: '-' :: cs => attached cs
  | '-' :: c :: _ => .short c
  | _ => .plain

/-! ## Reading a line -/

/-- What has been read and checked. -/
structure Draft where
  image : Option String
  /-- the numbers of the options, the latest first -/
  numbers : List (Setting × Nat)
  corrected : Bool

/-- What has been read and is not checked yet. -/
inductive Held where
  | nothing
  | image (name : String)
  | value (setting : Setting) (text : Option (List Char))

namespace Draft

/-- Nothing has been read. -/
def empty : Draft := ⟨none, [], false⟩

/-- The number that an option was set to. -/
def number? (d : Draft) (setting : Setting) : Option Nat := d.numbers.lookup setting

/-- Sets an option to what a text says. -/
def set (d : Draft) (setting : Setting) (text : List Char) : Except Problem Draft :=
  if (d.number? setting).isSome then
    .error .repeated
  else
    match setting.number? text with
    | some number => .ok { d with numbers := (setting, number) :: d.numbers }
    | none => .error .badValue

/-- Checks what is held. -/
def settle (d : Draft) : Held → Except Problem Draft
  | .nothing => .ok d
  | .image name => if name.isEmpty then .error .missingValue else .ok { d with image := some name }
  | .value _ none => .error .missingValue
  | .value setting (some text) => d.set setting text

/-- Whether there is an image already. -/
def hasImage (d : Draft) : Held → Bool
  | .image _ => true
  | _ => d.image.isSome

/-- The request of a line that was read to its end. -/
def request (d : Draft) : Except Problem Request :=
  match d.image with
  | none => .error .missingImage
  | some image =>
    let settings : Settings := {
      instructionsPerTick := (d.number? .speed).getD Settings.standard.instructionsPerTick
      stackLimit := d.number? .stackLimit
      seed := (d.number? .seed).map UInt64.ofNat }
    .ok {
      image
      settings := settings.withCorrections d.corrected
      volume := UInt8.ofNat ((d.number? .volume).getD 50)
      scale := (d.number? .scale).getD 10 }

end Draft

/-- Takes an argument as the image. -/
def takeImage (d : Draft) (held : Held) (arg : String) : Except Problem (Draft × Held) :=
  if d.hasImage held then
    .error .unknownArgument
  else
    match d.settle held with
    | .ok d => .ok (d, .image arg)
    | .error problem => .error problem

/-- Takes a named option, perhaps with a value. -/
def takeName (d : Draft) (held : Held) (value : Option (List Char)) :
    Name → Except Problem (Draft × Held)
  | .setting setting =>
    match d.settle held, value with
    | .error problem, _ => .error problem
    | .ok d, none => .ok (d, .value setting none)
    | .ok d, some text => (d.set setting text).map (·, .nothing)
  | flag =>
    if value.isSome then
      .error .unwantedValue
    else
      match d.settle held, flag with
      | .error problem, _ => .error problem
      | .ok _, .help => .error .help
      | .ok _, .version => .error .version
      | .ok d, _ =>
        if d.corrected then .error .repeated else .ok ({ d with corrected := true }, .nothing)

/-- Takes an argument that is not after `--`. -/
def take (d : Draft) (held : Held) (arg : String) : Except Problem (Draft × Held) :=
  match shape arg.toList with
  | .long name value =>
    match long? name with
    | some option => takeName d held value option
    | none => .error .unknownArgument
  | .short first =>
    match short? first with
    | some option => takeName d held none option
    | none => .error .unknownArgument
  | _ =>
    match held with
    | .value setting none => .ok (d, .value setting (some arg.toList))
    | _ => takeImage d held arg

/-- Reads the arguments that are left. `literal` is set after `--`. -/
def parseFrom (literal : Bool) (d : Draft) (held : Held) : List String → Except Problem Request
  | [] =>
    match d.settle held with
    | .ok d => d.request
    | .error problem => .error problem
  | arg :: rest =>
    if !literal && shape arg.toList = .rest then
      parseFrom true d held rest
    else
      match if literal then takeImage d held arg else take d held arg with
      | .ok (d, held) => parseFrom literal d held rest
      | .error problem => .error problem

/-- Reads a command line. -/
def parse (args : List String) : Except Problem Request := parseFrom false .empty .nothing args

end ChipEight.CommandLine
