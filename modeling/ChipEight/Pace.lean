import ChipEight.Settings

/-!
# Pace

A pace says when the next tick is due. Times are nanoseconds on some clock, which may be read
twice in one instant or step back; time that runs backwards counts as none.

The two questions `isDue` and `remaining` agree: `isDue_iff_remaining`.
-/

namespace ChipEight

/-- An interval between ticks and the time of the last one. -/
structure Pace where
  interval : Nat
  last : Option Nat
deriving DecidableEq

namespace Pace

/-- A pace that has not begun. -/
def every (interval : Nat) : Pace := ⟨interval, none⟩

/-- The pace of the machine's ticks. A fraction of a nanosecond is dropped. -/
def perTick : Pace := every (1000000000 / Settings.ticksPerSecond)

/-- Whether a tick is due: an interval has passed since the last one, or there was none. -/
def isDue (p : Pace) (now : Nat) : Bool :=
  match p.last with
  | none => true
  | some last => p.interval ≤ now - last

/-- Asks whether a tick is due, and remembers the time if it is. -/
def poll (p : Pace) (now : Nat) : Bool × Pace :=
  if p.isDue now then (true, { p with last := some now }) else (false, p)

/-- The time until a tick is due. -/
def remaining (p : Pace) (now : Nat) : Nat :=
  match p.last with
  | none => 0
  | some last => p.interval - (now - last)

theorem poll_of_isDue {p : Pace} {now : Nat} (h : p.isDue now = true) :
    p.poll now = (true, { p with last := some now }) :=
  if_pos h

theorem poll_of_not_isDue {p : Pace} {now : Nat} (h : p.isDue now = false) :
    p.poll now = (false, p) :=
  if_neg (by simp [h])

theorem isDue_iff_remaining (p : Pace) (now : Nat) :
    p.isDue now = true ↔ p.remaining now = 0 := by
  unfold isDue remaining
  cases p.last with
  | none => simp
  | some last => simp [Nat.sub_eq_zero_iff_le]

end Pace

end ChipEight
