import ChipEight.Fault
import ChipEight.Word
import ChipEight.Memory.Font

/-!
# Memory

The 4096 bytes that programs, their data and the font share. Every access names a range, and a
range that leaves memory is refused as a whole: `read` and `write` either reach all of it or none.

The view of a memory is `byteAt`. The lemmas below say what each operation does to it:

* `read_eq_ok` and `read_eq_error`, `write_eq_ok` and `write_eq_error`: which ranges are accepted
* `byteAt_overwrite`: a write changes the bytes of its range and no other
* `ext_byteAt`: two memories with equal bytes are equal
-/

namespace ChipEight

/-- Bytes of memory. -/
def memorySize : Nat := 4096

/-- Where programs are put and where they start. -/
def programStart : Nat := 0x200

/-- The longest program that fits between its start and the end of memory. -/
def programCapacity : Nat := memorySize - programStart

/-- The addressable bytes. -/
structure Memory where
  bytes : Vector UInt8 memorySize
deriving DecidableEq

namespace Memory

/-- The byte at an address, 0 past the end. -/
def byteAt (m : Memory) (address : Nat) : UInt8 :=
  if h : address < memorySize then m.bytes[address] else 0

/-- Replaces one byte. An address past the end is left out. -/
def set (m : Memory) (address : Nat) (byte : UInt8) : Memory :=
  ⟨m.bytes.setIfInBounds address byte⟩

/-- Lays bytes over memory from an address on, dropping those past the end. -/
def overwrite (m : Memory) (start : Nat) : List UInt8 → Memory
  | [] => m
  | byte :: rest => (m.set start byte).overwrite (start + 1) rest

/-- The fault of a range that leaves memory: it names the first address that does not exist. -/
def outside (start : Nat) : Fault := .outsideMemory (max start memorySize)

/-- The `count` bytes from `start` on. -/
def read (m : Memory) (start count : Nat) : Except Fault (List UInt8) :=
  if start + count ≤ memorySize then
    .ok ((List.range count).map fun k => m.byteAt (start + k))
  else
    .error (outside start)

/-- Puts bytes from `start` on. -/
def write (m : Memory) (start : Nat) (bytes : List UInt8) : Except Fault Memory :=
  if start + bytes.length ≤ memorySize then .ok (m.overwrite start bytes)
  else .error (outside start)

/-- The word at an address, its high byte first. -/
def word (m : Memory) (address : Nat) : Except Fault UInt16 :=
  if address + 2 ≤ memorySize then
    .ok (Word.join (m.byteAt address) (m.byteAt (address + 1)))
  else
    .error (outside address)

/-- Nothing but zeros. -/
def zero : Memory := ⟨Vector.replicate memorySize 0⟩

/-- A new memory holds the font at its start. -/
def initial : Memory := zero.overwrite 0 Font.glyphs

/-! ## Bytes -/

theorem ext_byteAt {m m' : Memory} (h : ∀ a, a < memorySize → m.byteAt a = m'.byteAt a) :
    m = m' := by
  cases m with | mk b => cases m' with | mk b' =>
  congr 1
  apply Vector.ext
  intro i hi
  have := h i hi
  simpa [byteAt, hi] using this

theorem byteAt_set (m : Memory) (a b : Nat) (byte : UInt8) :
    (m.set a byte).byteAt b = if a = b ∧ b < memorySize then byte else m.byteAt b := by
  unfold set byteAt
  by_cases hb : b < memorySize
  · simp [hb, Vector.getElem_setIfInBounds]
  · simp [hb]

theorem byteAt_overwrite (m : Memory) (start : Nat) (bytes : List UInt8) (a : Nat) :
    (m.overwrite start bytes).byteAt a =
      if start ≤ a ∧ a < memorySize then bytes.getD (a - start) (m.byteAt a) else m.byteAt a := by
  induction bytes generalizing m start with
  | nil => simp [overwrite]
  | cons byte rest ih =>
    rw [overwrite, ih, byteAt_set]
    by_cases ha : a < memorySize
    · by_cases h : start < a
      · have e : a - start = (a - (start + 1)) + 1 := by omega
        simp [ha, Nat.le_of_lt h, Nat.ne_of_lt h, Nat.succ_le_of_lt h, e]
      · by_cases h' : start = a
        · subst h'
          rw [if_neg fun hnext => Nat.not_succ_le_self start hnext.1, if_pos ⟨rfl, ha⟩,
            if_pos ⟨Nat.le_refl start, ha⟩, Nat.sub_self]
          rfl
        · have h1 : ¬ start ≤ a := by omega
          have h2 : ¬ start + 1 ≤ a := by omega
          simp [h1, h2, h']
    · simp [ha]

/-! ## Ranges -/

theorem read_eq_ok {m : Memory} {start count : Nat} (h : start + count ≤ memorySize) :
    m.read start count = .ok ((List.range count).map fun k => m.byteAt (start + k)) :=
  if_pos h

theorem read_eq_error {m : Memory} {start count : Nat} (h : memorySize < start + count) :
    m.read start count = .error (outside start) :=
  if_neg (Nat.not_le.mpr h)

theorem write_eq_ok {m : Memory} {start : Nat} {bytes : List UInt8}
    (h : start + bytes.length ≤ memorySize) :
    m.write start bytes = .ok (m.overwrite start bytes) :=
  if_pos h

theorem write_eq_error {m : Memory} {start : Nat} {bytes : List UInt8}
    (h : memorySize < start + bytes.length) : m.write start bytes = .error (outside start) :=
  if_neg (Nat.not_le.mpr h)

end Memory

end ChipEight
