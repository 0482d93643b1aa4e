import ChipEight.Machine.Batch

/-!
# What an instruction does to each part of a machine

`Instruction.execute` lists the instructions and says for each what it changes. Here the same is
read by columns: for each part of a machine, which instructions change it and to what.

* `obstacle?`: what keeps an instruction from being carried out
* `effect`: the machine after an instruction that nothing keeps from being carried out
* `execute_eq`: carrying out is one or the other, so an instruction that fails changes nothing

Later modules use the columns and do not open `execute` again.
-/

namespace ChipEight

namespace Machine

/-- The bytes from the index on. -/
def pointed (m : Machine) (count : Nat) : List UInt8 :=
  (List.range count).map fun k => m.memory.byteAt (m.index.toNat + k)

/-- What comes of stamping the sprite at the index, with its corner at `Vx`, `Vy`. -/
def stamped (m : Machine) (x y : Register) (height : Nat) : Frame × Bool :=
  m.frame.stamp
    (Sprite.pixels (m.registers.get x).toNat (m.registers.get y).toNat (m.pointed height))

/-- The fault of an access to bytes from the index on. -/
def reach? (m : Machine) (count : Nat) : Option Fault :=
  if m.index.toNat + count ≤ memorySize then none else some (Memory.outside m.index.toNat)

theorem skipIf_eq (m : Machine) (condition : Bool) :
    m.skipIf condition = { m with counter := if condition then m.counter + 2 else m.counter } := by
  cases condition <;> rfl

/-- A write of bytes from the index on fails where they do not fit and only there. -/
theorem store_eq (m : Machine) (bytes : List UInt8) :
    m.store bytes =
      match m.reach? bytes.length with
      | some cause => .halted cause m
      | none => .done { m with memory := m.memory.overwrite m.index.toNat bytes } := by
  unfold store reach?
  by_cases h : m.index.toNat + bytes.length ≤ memorySize
  · rw [Memory.write_eq_ok h, if_pos h]
  · rw [Memory.write_eq_error (Nat.lt_of_not_le h), if_neg h]

/-- A read of bytes from the index on fails where they do not exist and only there. -/
theorem read_index (m : Machine) (count : Nat) :
    m.memory.read m.index.toNat count =
      match m.reach? count with
      | some cause => .error cause
      | none => .ok (m.pointed count) := by
  unfold reach? pointed
  by_cases h : m.index.toNat + count ≤ memorySize
  · rw [Memory.read_eq_ok h, if_pos h]
  · rw [Memory.read_eq_error (Nat.lt_of_not_le h), if_neg h]

end Machine

namespace Instruction

/-! ## Obstacles -/

/-- What keeps an instruction from being carried out. -/
def obstacle? (settings : Settings) (m : Machine) : Instruction → Option Fault
  | .ret => if m.calls = [] then some .emptyCallStack else none
  | .call _ =>
    match settings.stackLimit with
    | none => none
    | some limit => if limit ≤ m.calls.length then some (.callDepth limit) else none
  | .draw _ _ height => m.reach? height
  | .storeDecimal _ => m.reach? 3
  | .storeRegisters x => m.reach? (x + 1)
  | .loadRegisters x => m.reach? (x + 1)
  | _ => none

/-! ## Columns -/

/-- Whether the next instruction is passed over. -/
def skips (pad : HexPad) (m : Machine) : Instruction → Bool
  | .skipEqual x byte => m.registers.get x = byte
  | .skipUnequal x byte => m.registers.get x ≠ byte
  | .skipSame x y => m.registers.get x = m.registers.get y
  | .skipDifferent x y => m.registers.get x ≠ m.registers.get y
  | .skipPressed x => pad.isDown (m.registers.get x)
  | .skipReleased x => !pad.isDown (m.registers.get x)
  | _ => false

def counterAfter (pad : HexPad) (m : Machine) : Instruction → UInt16
  | .ret => m.calls.headD m.counter
  | .jump target => target
  | .call target => target
  | .jumpOffset base => base + (m.registers.get v0).toUInt16
  | i => if i.skips pad m then m.counter + 2 else m.counter

def callsAfter (m : Machine) : Instruction → List UInt16
  | .ret => m.calls.tail
  | .call _ => m.counter :: m.calls
  | _ => m.calls

def registersAfter (settings : Settings) (m : Machine) : Instruction → Registers
  | .load x byte => m.registers.set x byte
  | .add x byte => m.registers.set x (m.registers.get x + byte)
  | .combine operator x y => operator.apply settings.addSetsCarry m.registers x y
  | .random x mask => m.registers.set x ((m.random.byte settings.fullRandomRange).1 &&& mask)
  | .draw x y height => m.registers.set flag (Operator.bit (m.stamped x y height).2)
  | .readDelay x => m.registers.set x m.delay
  | .loadRegisters x => m.registers.fill (m.pointed (x + 1))
  | _ => m.registers

def indexAfter (m : Machine) : Instruction → UInt16
  | .point target => target
  | .advance x => m.index + (m.registers.get x).toUInt16
  | .pointGlyph x => (m.registers.get x).toUInt16 * UInt16.ofNat Font.glyphRows
  | _ => m.index

def delayAfter (m : Machine) : Instruction → UInt8
  | .setDelay x => m.registers.get x
  | _ => m.delay

def soundAfter (m : Machine) : Instruction → UInt8
  | .setSound x => m.registers.get x
  | _ => m.sound

def memoryAfter (m : Machine) : Instruction → Memory
  | .storeDecimal x => m.memory.overwrite m.index.toNat (Machine.decimal (m.registers.get x))
  | .storeRegisters x => m.memory.overwrite m.index.toNat (m.registers.toList.take (x + 1))
  | _ => m.memory

def frameAfter (m : Machine) : Instruction → Frame
  | .clear => m.frame.clear
  | .draw x y height => (m.stamped x y height).1
  | _ => m.frame

def awaitingAfter (m : Machine) : Instruction → Option UInt8
  | .awaitKey x => some (UInt8.ofNat x)
  | _ => m.awaiting

def randomAfter (settings : Settings) (m : Machine) : Instruction → Source
  | .random _ _ => (m.random.byte settings.fullRandomRange).2
  | _ => m.random

/-- The machine after an instruction that nothing keeps from being carried out. -/
def effect (settings : Settings) (pad : HexPad) (m : Machine) (i : Instruction) : Machine where
  registers := i.registersAfter settings m
  index := i.indexAfter m
  counter := i.counterAfter pad m
  calls := i.callsAfter m
  delay := i.delayAfter m
  sound := i.soundAfter m
  memory := i.memoryAfter m
  frame := i.frameAfter m
  awaiting := i.awaitingAfter m
  random := i.randomAfter settings m

/-! ## Rows are columns -/

variable {settings : Settings} {pad : HexPad} {m m' : Machine} {i : Instruction} {cause : Fault}

theorem length_stored (r : Registers) (x : Register) : (r.toList.take (x + 1)).length = x + 1 := by
  have hx : x.val < 16 := x.isLt
  simp only [Registers.toList, List.length_take, Vector.length_toList]
  omega

/-- An instruction that meets an obstacle changes nothing, and any other has its effect. -/
theorem execute_eq (settings : Settings) (pad : HexPad) (m : Machine) (i : Instruction) :
    i.execute settings pad m =
      match i.obstacle? settings m with
      | some cause => .halted cause m
      | none => .done (i.effect settings pad m) := by
  -- a row is its columns by definition, but for those that branch or skip
  cases i with
  | ret =>
    cases hc : m.calls with
    | nil => simp only [execute, obstacle?, hc, if_pos]
    | cons back calls =>
      have hb : counterAfter pad m .ret = back := by rw [counterAfter, hc]; rfl
      have hr : callsAfter m .ret = calls := by rw [callsAfter, hc]; rfl
      simp only [execute, obstacle?, hc, effect, hb, hr]
      rfl
  | call target =>
    simp only [execute, obstacle?]
    cases settings.stackLimit with
    | none => rfl
    | some limit =>
      by_cases h : limit ≤ m.calls.length
      · simp only [if_pos h]
      · simp only [if_neg h]; rfl
  | draw x y height =>
    simp only [execute, obstacle?, Machine.read_index]
    cases m.reach? height with
    | none => rfl
    | some cause => rfl
  | storeDecimal x =>
    simp only [execute, obstacle?, Machine.store_eq]
    rfl
  | storeRegisters x =>
    simp only [execute, obstacle?, Machine.store_eq, length_stored]
    rfl
  | loadRegisters x =>
    simp only [execute, obstacle?, Machine.read_index]
    cases m.reach? (x + 1) with
    | none => rfl
    | some cause => rfl
  | skipEqual | skipUnequal | skipSame | skipDifferent | skipPressed | skipReleased =>
    simp only [execute, Machine.skipIf_eq]
    rfl
  | _ => rfl

theorem execute_eq_done_iff :
    i.execute settings pad m = .done m' ↔
      i.obstacle? settings m = none ∧ m' = i.effect settings pad m := by
  rw [execute_eq]
  cases i.obstacle? settings m with
  | none => simp [eq_comm]
  | some cause => simp

theorem execute_eq_halted_iff :
    i.execute settings pad m = .halted cause m' ↔
      i.obstacle? settings m = some cause ∧ m' = m := by
  rw [execute_eq]
  cases i.obstacle? settings m with
  | none => simp
  | some cause' => simp [eq_comm]

end Instruction

end ChipEight
