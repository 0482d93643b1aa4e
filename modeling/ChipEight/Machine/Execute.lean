import ChipEight.HexPad
import ChipEight.Machine.Arithmetic
import ChipEight.Settings
import ChipEight.Sprite

/-!
# Carrying out instructions

An instruction is carried out on a machine whose counter has already moved past it. The `Outcome`
is the machine afterwards or, for an instruction that cannot be carried out, a fault and the
machine as the fault left it.
-/

namespace ChipEight

/-- How instructions end. -/
inductive Outcome where
  /-- all were carried out -/
  | done (machine : Machine)
  /-- one of them could not be -/
  | halted (cause : Fault) (machine : Machine)

namespace Outcome

/-- The machine afterwards. -/
def machine : Outcome → Machine
  | .done m => m
  | .halted _ m => m

/-- What stopped it. -/
def fault? : Outcome → Option Fault
  | .done _ => none
  | .halted cause _ => some cause

end Outcome

namespace Machine

/-- Passes over the next instruction if a condition holds. -/
def skipIf (m : Machine) (condition : Bool) : Machine :=
  if condition then { m with counter := m.counter + 2 } else m

/-- Goes to `target` and notes where to come back to. -/
def enter (m : Machine) (target : UInt16) : Machine :=
  { m with counter := target, calls := m.counter :: m.calls }

/-- Writes a register. -/
def put (m : Machine) (x : Register) (byte : UInt8) : Machine :=
  { m with registers := m.registers.set x byte }

/-- Draws a sprite with its corner at the pixel that `Vx` and `Vy` name. The flag tells whether it
erased a cell; it may be `Vx` or `Vy`, so it is written after they were read. -/
def drawSprite (m : Machine) (x y : Register) (rows : List UInt8) : Machine :=
  let pixels := Sprite.pixels (m.registers.get x).toNat (m.registers.get y).toNat rows
  let drawn := m.frame.stamp pixels
  { m with
    registers := m.registers.set flag (Operator.bit drawn.2)
    frame := drawn.1 }

/-- Hundreds, tens and ones of a byte. -/
def decimal (byte : UInt8) : List UInt8 := [byte / 100, byte / 10 % 10, byte % 10]

/-- The machine with bytes written from the index on, or as it is if they do not fit. -/
def store (m : Machine) (bytes : List UInt8) : Outcome :=
  match m.memory.write m.index.toNat bytes with
  | .ok memory => .done { m with memory }
  | .error cause => .halted cause m

end Machine

/-- Carries out an instruction. -/
def Instruction.execute (settings : Settings) (pad : HexPad) (m : Machine) : Instruction → Outcome
  | .idle => .done m
  | .clear => .done { m with frame := m.frame.clear }
  | .ret =>
    match m.calls with
    | [] => .halted .emptyCallStack m
    | back :: calls => .done { m with counter := back, calls }
  | .jump target => .done { m with counter := target }
  | .call target =>
    match settings.stackLimit with
    | none => .done (m.enter target)
    | some limit =>
      if limit ≤ m.calls.length then .halted (.callDepth limit) m else .done (m.enter target)
  | .skipEqual x byte => .done (m.skipIf (m.registers.get x = byte))
  | .skipUnequal x byte => .done (m.skipIf (m.registers.get x ≠ byte))
  | .skipSame x y => .done (m.skipIf (m.registers.get x = m.registers.get y))
  | .skipDifferent x y => .done (m.skipIf (m.registers.get x ≠ m.registers.get y))
  | .load x byte => .done (m.put x byte)
  | .add x byte => .done (m.put x (m.registers.get x + byte))
  | .combine operator x y =>
    .done { m with registers := operator.apply settings.addSetsCarry m.registers x y }
  | .point target => .done { m with index := target }
  | .jumpOffset base => .done { m with counter := base + (m.registers.get v0).toUInt16 }
  | .random x mask =>
    let drawn := m.random.byte settings.fullRandomRange
    .done { m.put x (drawn.1 &&& mask) with random := drawn.2 }
  | .draw x y height =>
    match m.memory.read m.index.toNat height with
    | .ok rows => .done (m.drawSprite x y rows)
    | .error cause => .halted cause m
  | .skipPressed x => .done (m.skipIf (pad.isDown (m.registers.get x)))
  | .skipReleased x => .done (m.skipIf (!pad.isDown (m.registers.get x)))
  | .readDelay x => .done (m.put x m.delay)
  | .awaitKey x => .done { m with awaiting := some (UInt8.ofNat x) }
  | .setDelay x => .done { m with delay := m.registers.get x }
  | .setSound x => .done { m with sound := m.registers.get x }
  | .advance x => .done { m with index := m.index + (m.registers.get x).toUInt16 }
  | .pointGlyph x =>
    .done { m with index := (m.registers.get x).toUInt16 * UInt16.ofNat Font.glyphRows }
  | .storeDecimal x => m.store (Machine.decimal (m.registers.get x))
  | .storeRegisters x => m.store (m.registers.toList.take (x + 1))
  | .loadRegisters x =>
    match m.memory.read m.index.toNat (x + 1) with
    | .ok bytes => .done { m with registers := m.registers.fill bytes }
    | .error cause => .halted cause m

end ChipEight
