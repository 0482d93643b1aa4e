import ChipEight.Proofs.Bounds
import ChipEight.Proofs.Flips

/-!
# The checked machine

The operations of a machine are total: a sum of words wraps, a write past the end is left out, and a
list is cut where it ends. Here the machine is carried out once more with operations that give up
(`none`) instead:

* a sum, difference or product that does not fit its width
* an index past the end, and a shift by all the bits of a byte or more
* a slice that leaves what it is cut from
* a copy of a list over a slice of another length

Where the machine means to wrap or to leave something out, it still does: the counter moves past a
word, `7xkk`, `8xyn` and `Fx1E` wrap, a pixel past the last cell is dropped, and a key past `F` is
none of the keypad.

* `Checked.execute`: one instruction
* `Checked.handle`, `Checked.run`: events
* `slice_eq_some`, `copy_eq_some`: which slices and copies are allowed
-/

namespace ChipEight

namespace Checked

/-! ## Numbers -/

/-- A number of 64 bits: a length, an index or a coordinate. -/
def fit64 (n : Nat) : Option Nat := if n < UInt64.size then some n else none

/-- A number of sixteen bits. -/
def fit16 (n : Nat) : Option UInt16 := if n < UInt16.size then some (UInt16.ofNat n) else none

/-- A difference that is not negative. -/
def difference (a b : Nat) : Option Nat := if b ≤ a then some (a - b) else none

/-- The bit of a column of a sprite. -/
def mask (col : Nat) : Option UInt8 := if col < 8 then some (0x80 >>> UInt8.ofNat col) else none

theorem fit64_eq_some {n : Nat} (h : n < UInt64.size) : fit64 n = some n := if_pos h

theorem fit16_eq_some {n : Nat} (h : n < UInt16.size) : fit16 n = some (UInt16.ofNat n) := if_pos h

theorem mask_eq_some {col : Nat} (h : col < 8) : mask col = some (0x80 >>> UInt8.ofNat col) :=
  if_pos h

/-! ## Slices -/

section Slices

variable {α : Type} {n start stop : Nat} {v : Vector α n} {source : List α}

/-- Writes one element. -/
def write (v : Vector α n) (i : Nat) (a : α) : Option (Vector α n) :=
  if h : i < n then some (v.set i a h) else none

/-- The elements from `start` up to `stop`. -/
def slice (v : Vector α n) (start stop : Nat) : Option (List α) :=
  if start ≤ stop ∧ stop ≤ n then some ((v.toList.drop start).take (stop - start)) else none

/-- Copies elements over those from `start` up to `stop`, which have to be as many. -/
def copy (v : Vector α n) (start stop : Nat) (source : List α) : Option (Vector α n) :=
  if start ≤ stop ∧ stop ≤ n ∧ source.length = stop - start then
    some (Vector.ofFn fun i =>
      if start ≤ i.val then source.getD (i.val - start) v[i] else v[i])
  else none

theorem slice_eq_some (h : start ≤ stop) (hn : stop ≤ n) :
    slice v start stop = some ((v.toList.drop start).take (stop - start)) := if_pos ⟨h, hn⟩

theorem copy_eq_some (v : Vector α n) (h : start + source.length ≤ n) :
    copy v start (start + source.length) source =
      some (Vector.ofFn fun i =>
        if start ≤ i.val then source.getD (i.val - start) v[i] else v[i]) :=
  if_pos ⟨Nat.le_add_right _ _, h, by omega⟩

/-- A list that is not too long can be copied to the front, and it is found there. -/
theorem exists_copy (v : Vector α n) (h : source.length ≤ n) :
    ∃ w, copy v 0 source.length source = some w ∧ slice w 0 source.length = some source := by
  have hcopy := copy_eq_some v (show 0 + source.length ≤ n by omega)
  rw [Nat.zero_add] at hcopy
  refine ⟨_, hcopy, ?_⟩
  rw [slice_eq_some (Nat.zero_le _) h]
  refine congrArg some (List.ext_getElem ?_ ?_)
  · simp [h]
  · intro i hi hi'
    simp [hi']

theorem slice_memory {m : Memory} {count : Nat} (h : start + count ≤ memorySize) :
    slice m.bytes start (start + count) =
      some ((List.range count).map fun k => m.byteAt (start + k)) := by
  rw [slice_eq_some (Nat.le_add_right _ _) h]
  refine congrArg some (List.ext_getElem ?_ ?_)
  · simp
    omega
  · intro k hk hk'
    have hlt : start + k < memorySize := by
      simp at hk'
      omega
    simp [Memory.byteAt, hlt]

theorem copy_memory (m : Memory) {bytes : List UInt8} (h : start + bytes.length ≤ memorySize) :
    copy m.bytes start (start + bytes.length) bytes = some (m.overwrite start bytes).bytes := by
  rw [copy_eq_some m.bytes h]
  refine congrArg some (Vector.ext fun i hi => ?_)
  have hold : m.bytes[i] = m.byteAt i := (dif_pos hi).symm
  have hnew : (m.overwrite start bytes).bytes[i] = (m.overwrite start bytes).byteAt i :=
    (dif_pos hi).symm
  rw [hnew, Memory.byteAt_overwrite]
  simp [hi, hold]

end Slices

/-! ## Registers -/

/-- The byte of the register of a number. -/
def get (r : Registers) (x : Nat) : Option UInt8 := r.bytes[x]?

/-- Writes the register of a number. -/
def set (r : Registers) (x : Nat) (byte : UInt8) : Option Registers :=
  (write r.bytes x byte).map .mk

/-- Applies an operator to the registers of two numbers. -/
def apply (carries : Bool) (r : Registers) (x y : Nat) : Operator → Option Registers
  | .copy => do set r x (← get r y)
  | .or => do set r x ((← get r x) ||| (← get r y))
  | .and => do set r x ((← get r x) &&& (← get r y))
  | .xor => do set r x ((← get r x) ^^^ (← get r y))
  | .add => do
    let vx ← get r x
    let vy ← get r y
    let r ← set r x (vx + vy)
    set r 0xF (Operator.bit (carries && 0x100 ≤ vx.toNat + vy.toNat))
  | .subtract => do
    let r ← set r 0xF (Operator.bit ((← get r y) < (← get r x)))
    set r x ((← get r x) - (← get r y))
  | .halve => do
    let r ← set r 0xF ((← get r x) &&& 1)
    set r x ((← get r x) >>> 1)
  | .subtractFrom => do
    let r ← set r 0xF (Operator.bit ((← get r x) < (← get r y)))
    set r x ((← get r y) - (← get r x))
  | .double => do
    let r ← set r 0xF ((← get r x) &&& 0x80)
    set r x ((← get r x) <<< 1)

@[simp] theorem get_register (r : Registers) (x : Register) : get r x = some (r.get x) := by
  simp [get, Registers.get]

@[simp] theorem set_register (r : Registers) (x : Register) (byte : UInt8) :
    set r x byte = some (r.set x byte) := by
  simp [set, write, Registers.set]

@[simp] theorem get_v0 (r : Registers) : get r 0 = some (r.get v0) := get_register r v0

@[simp] theorem set_flag (r : Registers) (byte : UInt8) :
    set r 0xF byte = some (r.set flag byte) := set_register r flag byte

/-- The register of a number that is stored as a byte. -/
theorem set_numbered (r : Registers) {x : UInt8} (hx : x.toNat ≤ 0xF) (byte : UInt8) :
    set r x.toNat byte = some (r.setNumbered x byte) := by
  let y : Register := ⟨x.toNat, by omega⟩
  have hset : r.set y byte = r.setNumbered x byte := Registers.ext_get fun z => by
    simp [Registers.get_set, Registers.get_setNumbered, Fin.ext_iff, y]
  exact (set_register r y byte).trans (congrArg some hset)

theorem slice_registers (r : Registers) (x : Register) :
    slice r.bytes 0 (x + 1) = some (r.toList.take (x + 1)) :=
  slice_eq_some (Nat.zero_le _) x.isLt

theorem copy_registers (r : Registers) {bytes : List UInt8} (h : bytes.length ≤ 16) :
    copy r.bytes 0 bytes.length bytes = some (r.fill bytes).bytes := by
  have hcopy := copy_eq_some r.bytes (show 0 + bytes.length ≤ 16 by omega)
  rw [Nat.zero_add] at hcopy
  exact hcopy

theorem apply_register (carries : Bool) (r : Registers) (x y : Register) (o : Operator) :
    apply carries r x y o = some (o.apply carries r x y) := by
  cases o <;> simp [apply, Operator.apply, Operator.report]

/-! ## Frames -/

/-- Whether the cell of a column and row is lit. -/
def isSet (f : Frame) (x y : Nat) : Option Bool :=
  if x < f.cols ∧ y < f.rows then do
    let row ← fit64 (y * f.cols)
    f.cells[← fit64 (x + row)]?
  else some false

/-- Pulls a coordinate past the edge back by a dimension. -/
def pullBack (dimension coordinate : Nat) : Option Nat :=
  if dimension < coordinate then difference coordinate dimension else some coordinate

/-- Toggles a pixel. A number past the last cell is no mistake, and changes nothing. -/
def toggle (f : Frame) (x y : Nat) : Option (Frame × Bool) := do
  let x ← pullBack f.cols x
  let y ← pullBack f.rows y
  let row ← fit64 (y * f.cols)
  let cell ← fit64 (x + row)
  return (f.flip cell, f.lit cell)

/-- Toggles the pixel of a column of a numbered row of a sprite, if its bit is set. -/
def drawPixel (x y : Nat) (row : UInt8 × Nat) (drawn : Frame × Bool) (col : Nat) :
    Option (Frame × Bool) := do
  if row.1 &&& (← mask col) = 0 then
    return drawn
  else
    let next ← toggle drawn.1 (← fit64 (x + col)) (← fit64 (y + row.2))
    return (next.1, drawn.2 || next.2)

/-- Draws the rows of a sprite with its corner at a pixel, and says whether that erased a cell. -/
def drawRows (f : Frame) (x y : Nat) (rows : List UInt8) : Option (Frame × Bool) :=
  rows.zipIdx.foldlM (fun drawn row => (List.range 8).foldlM (drawPixel x y row) drawn) (f, false)

/-! ## Instructions -/

/-- The end of a range of memory, or the fault of a range that leaves it. -/
def range (start count : Nat) : Option (Except Fault Nat) := do
  let stop ← fit64 (start + count)
  return if memorySize < stop then .error (Memory.outside start) else .ok stop

/-- Goes on with the end of a range from the index on. If the range leaves memory, the machine is
halted as it is. -/
def fromIndex (m : Machine) (count : Nat) (next : Nat → Option Outcome) : Option Outcome := do
  match ← range m.index.toNat count with
  | .ok stop => next stop
  | .error cause => return .halted cause m

/-- Carries out an instruction. Those that are not listed neither compute nor index anything. -/
def execute (settings : Settings) (pad : HexPad) (m : Machine) : Instruction → Option Outcome
  | .skipEqual x byte => do
    return .done (m.skipIf ((← get m.registers x) = byte))
  | .skipUnequal x byte => do
    return .done (m.skipIf ((← get m.registers x) ≠ byte))
  | .skipSame x y => do
    return .done (m.skipIf ((← get m.registers x) = (← get m.registers y)))
  | .skipDifferent x y => do
    return .done (m.skipIf ((← get m.registers x) ≠ (← get m.registers y)))
  | .load x byte => do
    return .done { m with registers := ← set m.registers x byte }
  | .add x byte => do
    return .done { m with registers := ← set m.registers x ((← get m.registers x) + byte) }
  | .combine operator x y => do
    return .done { m with registers := ← apply settings.addSetsCarry m.registers x y operator }
  | .jumpOffset base => do
    let v0 ← get m.registers 0
    return .done { m with counter := ← fit16 (base.toNat + v0.toNat) }
  | .random x mask => do
    let drawn := m.random.byte settings.fullRandomRange
    return .done { m with
      registers := ← set m.registers x (drawn.1 &&& mask)
      random := drawn.2 }
  | .draw x y height => do
    let vx ← get m.registers x
    let vy ← get m.registers y
    fromIndex m height fun stop => do
      let source ← slice m.memory.bytes m.index.toNat stop
      let sprite ← copy (Vector.replicate 0xF 0) 0 height source
      let drawn ← drawRows m.frame vx.toNat vy.toNat (← slice sprite 0 height)
      return .done { m with
        registers := ← set m.registers 0xF (Operator.bit drawn.2)
        frame := drawn.1 }
  | .skipPressed x => do
    return .done (m.skipIf (pad.isDown (← get m.registers x)))
  | .skipReleased x => do
    return .done (m.skipIf (!pad.isDown (← get m.registers x)))
  | .readDelay x => do
    return .done { m with registers := ← set m.registers x m.delay }
  | .setDelay x => do
    return .done { m with delay := ← get m.registers x }
  | .setSound x => do
    return .done { m with sound := ← get m.registers x }
  | .advance x => do
    return .done { m with index := m.index + (← get m.registers x).toUInt16 }
  | .pointGlyph x => do
    let vx ← get m.registers x
    return .done { m with index := ← fit16 (vx.toNat * Font.glyphRows) }
  | .storeDecimal x => do
    let digits := Machine.decimal (← get m.registers x)
    fromIndex m digits.length fun stop => do
      return .done { m with memory := ⟨← copy m.memory.bytes m.index.toNat stop digits⟩ }
  | .storeRegisters x => do
    let count ← fit64 (x + 1)
    fromIndex m count fun stop => do
      let source ← slice m.registers.bytes 0 count
      return .done { m with memory := ⟨← copy m.memory.bytes m.index.toNat stop source⟩ }
  | .loadRegisters x => do
    let count ← fit64 (x + 1)
    fromIndex m count fun stop => do
      let source ← slice m.memory.bytes m.index.toNat stop
      return .done { m with registers := ⟨← copy m.registers.bytes 0 count source⟩ }
  | i => some (i.execute settings pad m)

/-! ## Batches -/

/-- The word at the counter. -/
def fetch (m : Machine) : Option (Except Fault UInt16) := do
  match ← range m.counter.toNat 2 with
  | .ok stop =>
    let bytes ← slice m.memory.bytes m.counter.toNat stop
    return .ok (Word.join (← bytes[0]?) (← bytes[1]?))
  | .error cause => return .error cause

/-- Moves the counter past a word and carries the word out. -/
def perform (settings : Settings) (pad : HexPad) (m : Machine) (word : UInt16) : Option Outcome :=
  execute settings pad m.past (Instruction.ofWord word)

/-- Takes the word at the counter and carries it out. -/
def step (settings : Settings) (pad : HexPad) (m : Machine) : Option Outcome := do
  match ← fetch m with
  | .ok word => perform settings pad m word
  | .error cause => return .halted cause m

/-- Takes steps until one of them halts. -/
def batch (settings : Settings) (pad : HexPad) : Nat → Machine → Option Outcome
  | 0, m => some (.done m)
  | n + 1, m => do
    match ← step settings pad m with
    | .done next => batch settings pad n next
    | .halted cause next => return .halted cause next

/-! ## Events -/

/-- A new console, with the font copied to the start of its memory. -/
def start (settings : Settings) (random : Source) : Option Console := do
  let c := Console.start settings random
  let bytes ← copy Memory.zero.bytes 0 Font.glyphs.length Font.glyphs
  return { c with machine := { c.machine with memory := ⟨bytes⟩ } }

/-- One tick. -/
def tick (c : Console) : Option Reply :=
  if c.fault.isSome || c.awaitsKey then some c.report
  else do
    let outcome ← batch c.settings c.pad c.settings.instructionsPerTick c.machine
    return (c.finish outcome).report

/-- Copies an image into memory. -/
def load (c : Console) (image : List UInt8) : Option Reply :=
  if programCapacity < image.length then
    some ⟨.error (.imageTooLarge image.length programCapacity), c, []⟩
  else do
    let stop ← fit64 (programStart + image.length)
    let bytes ← copy c.machine.memory.bytes programStart stop image
    return ⟨.ok (), { c with machine := { c.machine with memory := ⟨bytes⟩ } }, []⟩

/-- Writes a key to the register that awaits one, whatever its number. -/
def deliver (c : Console) (key : UInt8) : Option Console :=
  match c.machine.awaiting with
  | none => some c
  | some x => do
    let registers ← set c.machine.registers x.toNat key
    return { c with machine := { c.machine with registers, awaiting := none } }

/-- What a console makes of an event. -/
def handle (c : Console) : Event → Option Reply
  | .tick => tick c
  | .load image => load c image
  | .loadFrom source =>
    match Image.ofReadings source with
    | .ok image => load c image
    | .error cause => some ⟨.error cause, c, []⟩
  | .press key => do return ⟨.ok (), ← deliver { c with pad := c.pad.press key } key, []⟩
  | .deliver key => do return ⟨.ok (), ← deliver c key, []⟩
  | event => some (c.handle event)

/-- The console after events. -/
def run (c : Console) (events : List Event) : Option Console :=
  events.foldlM (fun c event => (handle c event).map Reply.console) c

end Checked

end ChipEight
