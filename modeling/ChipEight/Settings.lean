/-!
# Settings

What the owner of a machine chooses before it runs. Two of the choices set aside a convention
that programs may depend on, and both are off unless asked for:

* `addSetsCarry`: the sum of two registers reports its carry in the flag; otherwise the flag is 0
* `fullRandomRange`: a random byte may be 255; otherwise it is at most 254
-/

namespace ChipEight

/-- The owner's choices. -/
structure Settings where
  /-- instructions in the batch of a tick -/
  instructionsPerTick : Nat := 10
  /-- frequency of the tone in hertz -/
  toneFrequency : UInt32 := 480
  /-- how many calls may be open at once, `none` for any number -/
  stackLimit : Option Nat := none
  addSetsCarry : Bool := false
  fullRandomRange : Bool := false
  /-- what random bytes are made from, `none` where no run has to be repeated -/
  seed : Option UInt64 := none
deriving DecidableEq

namespace Settings

/-- Ticks in a second. -/
def ticksPerSecond : Nat := 60

/-- The usual depth of a call stack that has a limit. -/
def classicStackLimit : Nat := 16

/-- The settings of a machine that nobody has changed. -/
def standard : Settings := {}

/-- The standard settings with a call stack of the usual depth. -/
def classic : Settings := { stackLimit := some classicStackLimit }

/-- Turns both conventions off (`true`) or on (`false`). -/
def withCorrections (settings : Settings) (corrected : Bool) : Settings :=
  { settings with addSetsCarry := corrected, fullRandomRange := corrected }

end Settings

end ChipEight
