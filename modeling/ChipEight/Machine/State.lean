import ChipEight.Frame
import ChipEight.Machine.Registers
import ChipEight.Memory
import ChipEight.Random.Source

/-!
# The state of a machine

`State` is all that a program can observe or change. `Machine` adds the source of its random
bytes, which no program can observe but through the bytes it draws.
-/

namespace ChipEight

/-- What a program works on. -/
structure State where
  registers : Registers
  /-- the register that addresses memory; it may point past the end -/
  index : UInt16
  /-- the address of the next instruction -/
  counter : UInt16
  /-- return addresses, the latest first -/
  calls : List UInt16
  /-- the timer that programs read -/
  delay : UInt8
  /-- the timer that keeps the tone on -/
  sound : UInt8
  memory : Memory
  frame : Frame
  /-- the number of the register that a key is awaited for -/
  awaiting : Option UInt8
deriving DecidableEq

/-- A state together with the source of its random bytes. -/
structure Machine extends State where
  random : Source

namespace State

/-- A new state with a given frame. -/
def initial (frame : Frame) : State where
  registers := .zero
  index := 0
  counter := UInt16.ofNat programStart
  calls := []
  delay := 0
  sound := 0
  memory := .initial
  frame
  awaiting := none

/-- A timer one tick later. It stops at 0. -/
def countDown (timer : UInt8) : UInt8 := if timer = 0 then 0 else timer - 1

/-- Lets both timers run for one tick. -/
def advanceTimers (s : State) : State :=
  { s with delay := countDown s.delay, sound := countDown s.sound }

theorem toNat_countDown (timer : UInt8) : (countDown timer).toNat = timer.toNat - 1 := by
  unfold countDown
  split
  · next h => simp [h]
  · next h =>
    have : 1 ≤ timer := by
      rw [UInt8.le_iff_toNat_le]
      have : timer.toNat ≠ 0 := fun h' => h (UInt8.toNat_inj.mp (by simpa using h'))
      simp; omega
    rw [UInt8.toNat_sub_of_le _ _ this]
    rfl

end State

/-- A new machine on the screen's frame. -/
def Machine.initial (random : Source) : Machine := { State.initial .screen with random }

end ChipEight
