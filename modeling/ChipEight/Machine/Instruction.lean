import ChipEight.Word

/-!
# Instructions

What a machine can be told to do, and the reading of words as instructions. Every word is an
instruction: those that nothing is assigned to, machine code calls among them, do nothing.

* `5xyn` and `9xyn` compare registers whatever their last digit is.
* Of family `0` only `00E0` and `00EE` are assigned.
-/

namespace ChipEight

/-- What `8xyn` does with `Vx` and `Vy`. -/
inductive Operator where
  | copy
  | or
  | and
  | xor
  | add
  | subtract
  | halve
  | subtractFrom
  | double
deriving DecidableEq

/-- One instruction with its operands. -/
inductive Instruction where
  /-- nothing -/
  | idle
  /-- unlight the frame -/
  | clear
  /-- go back to the latest call -/
  | ret
  | jump (target : UInt16)
  | call (target : UInt16)
  /-- skip if `Vx` is `byte` -/
  | skipEqual (x : Register) (byte : UInt8)
  /-- skip if `Vx` is not `byte` -/
  | skipUnequal (x : Register) (byte : UInt8)
  /-- skip if `Vx` is `Vy` -/
  | skipSame (x y : Register)
  /-- skip if `Vx` is not `Vy` -/
  | skipDifferent (x y : Register)
  | load (x : Register) (byte : UInt8)
  /-- add to `Vx` and leave the flag alone -/
  | add (x : Register) (byte : UInt8)
  | combine (operator : Operator) (x y : Register)
  /-- set the index -/
  | point (target : UInt16)
  /-- jump past `base` by `V0` -/
  | jumpOffset (base : UInt16)
  /-- set `Vx` to a random byte under `mask` -/
  | random (x : Register) (mask : UInt8)
  /-- draw the sprite of `height` rows at the index with its corner at `Vx`, `Vy` -/
  | draw (x y : Register) (height : Fin 16)
  /-- skip if the key `Vx` is down -/
  | skipPressed (x : Register)
  /-- skip if the key `Vx` is up -/
  | skipReleased (x : Register)
  /-- set `Vx` to the delay timer -/
  | readDelay (x : Register)
  /-- wait for a key for `Vx` -/
  | awaitKey (x : Register)
  /-- set the delay timer to `Vx` -/
  | setDelay (x : Register)
  /-- set the sound timer to `Vx` -/
  | setSound (x : Register)
  /-- add `Vx` to the index -/
  | advance (x : Register)
  /-- set the index to the glyph of the digit `Vx` -/
  | pointGlyph (x : Register)
  /-- put the decimal digits of `Vx` at the index -/
  | storeDecimal (x : Register)
  /-- put `V0` to `Vx` at the index -/
  | storeRegisters (x : Register)
  /-- get `V0` to `Vx` from the index -/
  | loadRegisters (x : Register)
deriving DecidableEq

namespace Instruction

/-- The operator that the last digit of family `8` names. -/
def operator? : Fin 16 → Option Operator
  | 0x0 => some .copy
  | 0x1 => some .or
  | 0x2 => some .and
  | 0x3 => some .xor
  | 0x4 => some .add
  | 0x5 => some .subtract
  | 0x6 => some .halve
  | 0x7 => some .subtractFrom
  | 0xE => some .double
  | _ => none

/-- Family `0`. -/
def ofSystem (w : UInt16) : Instruction :=
  if w = 0x00E0 then .clear else if w = 0x00EE then .ret else .idle

/-- Family `8`. -/
def ofArithmetic (w : UInt16) : Instruction :=
  match operator? (Word.n w) with
  | some operator => .combine operator (Word.x w) (Word.y w)
  | none => .idle

/-- Family `E`. -/
def ofKeys (w : UInt16) : Instruction :=
  if Word.kk w = 0x9E then .skipPressed (Word.x w)
  else if Word.kk w = 0xA1 then .skipReleased (Word.x w)
  else .idle

/-- Family `F`. -/
def ofDevices (w : UInt16) : Instruction :=
  if Word.kk w = 0x07 then .readDelay (Word.x w)
  else if Word.kk w = 0x0A then .awaitKey (Word.x w)
  else if Word.kk w = 0x15 then .setDelay (Word.x w)
  else if Word.kk w = 0x18 then .setSound (Word.x w)
  else if Word.kk w = 0x1E then .advance (Word.x w)
  else if Word.kk w = 0x29 then .pointGlyph (Word.x w)
  else if Word.kk w = 0x33 then .storeDecimal (Word.x w)
  else if Word.kk w = 0x55 then .storeRegisters (Word.x w)
  else if Word.kk w = 0x65 then .loadRegisters (Word.x w)
  else .idle

/-- The instruction that a word stands for. -/
def ofWord (w : UInt16) : Instruction :=
  match Word.family w with
  | 0x0 => ofSystem w
  | 0x1 => .jump (Word.nnn w)
  | 0x2 => .call (Word.nnn w)
  | 0x3 => .skipEqual (Word.x w) (Word.kk w)
  | 0x4 => .skipUnequal (Word.x w) (Word.kk w)
  | 0x5 => .skipSame (Word.x w) (Word.y w)
  | 0x6 => .load (Word.x w) (Word.kk w)
  | 0x7 => .add (Word.x w) (Word.kk w)
  | 0x8 => ofArithmetic w
  | 0x9 => .skipDifferent (Word.x w) (Word.y w)
  | 0xA => .point (Word.nnn w)
  | 0xB => .jumpOffset (Word.nnn w)
  | 0xC => .random (Word.x w) (Word.kk w)
  | 0xD => .draw (Word.x w) (Word.y w) (Word.n w)
  | 0xE => ofKeys w
  | _ => ofDevices w

end Instruction

end ChipEight
