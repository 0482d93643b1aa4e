import ChipEight.Text.Hex

/-!
# Faults

The conditions that halt a machine or refuse a program image, and the sentence that reports each.
-/

namespace ChipEight

/-- Why a machine halts, or why a program image is refused. -/
inductive Fault where
  /-- a word that stands for no instruction; every word of sixteen bits stands for one -/
  | unknownWord (word : UInt16)
  /-- a return without a call to return from -/
  | emptyCallStack
  /-- a call nested deeper than the settings allow -/
  | callDepth (limit : Nat)
  /-- an access to a byte that does not exist -/
  | outsideMemory (address : Nat)
  /-- an image longer than the room there is for programs -/
  | imageTooLarge (size capacity : Nat)
  /-- an image whose source failed while it was read -/
  | imageUnreadable (reason : String)
deriving DecidableEq

/-- The sentence that reports a fault. -/
def Fault.message : Fault → String
  | .unknownWord word => s!"unknown opcode 0x{Hex.upper 4 word.toNat}"
  | .emptyCallStack => "return with an empty call stack"
  | .callDepth limit => s!"call stack exceeded its limit of {limit} return addresses"
  | .outsideMemory address => s!"memory access out of bounds at address 0x{Hex.upper 4 address}"
  | .imageTooLarge size capacity =>
    s!"ROM is {size} bytes but at most {capacity} bytes fit in memory"
  | .imageUnreadable reason => s!"unable to read ROM: {reason}"

end ChipEight
