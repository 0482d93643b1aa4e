import ChipEight.Machine.Execute

/-!
# Batches

A machine runs by fetching the word at its counter, moving the counter past it and carrying it
out. A batch is a number of such steps; the first fault ends it.

`trail` lists the machines at which the words of a batch were fetched. What was carried out, and
in which order, is read off it.
-/

namespace ChipEight.Machine

/-- The word at the counter. -/
def fetch (m : Machine) : Except Fault UInt16 := m.memory.word m.counter.toNat

/-- Moves the counter past a word and carries the word out. -/
def perform (settings : Settings) (pad : HexPad) (m : Machine) (word : UInt16) : Outcome :=
  (Instruction.ofWord word).execute settings pad { m with counter := m.counter + 2 }

/-- Fetches one word and carries it out. -/
def step (settings : Settings) (pad : HexPad) (m : Machine) : Outcome :=
  match m.fetch with
  | .ok word => m.perform settings pad word
  | .error cause => .halted cause m

/-- Takes steps until one of them halts. -/
def batch (settings : Settings) (pad : HexPad) : Nat → Machine → Outcome
  | 0, m => .done m
  | n + 1, m =>
    match m.step settings pad with
    | .done next => batch settings pad n next
    | .halted cause next => .halted cause next

/-- The machines at which the words of a batch are fetched, in order. -/
def trail (settings : Settings) (pad : HexPad) : Nat → Machine → List Machine
  | 0, _ => []
  | n + 1, m =>
    match m.fetch with
    | .error _ => []
    | .ok word =>
      m :: match m.perform settings pad word with
        | .done next => trail settings pad n next
        | .halted _ _ => []

theorem step_of_fetch {settings : Settings} {pad : HexPad} {m : Machine} {word : UInt16}
    (h : m.fetch = .ok word) : m.step settings pad = m.perform settings pad word := by
  rw [step, h]

theorem step_of_fetch_error {settings : Settings} {pad : HexPad} {m : Machine} {cause : Fault}
    (h : m.fetch = .error cause) : m.step settings pad = .halted cause m := by
  rw [step, h]

/-- Two batches in a row are one, unless the first halts. -/
theorem batch_add (settings : Settings) (pad : HexPad) (j k : Nat) (m : Machine) :
    batch settings pad (j + k) m =
      match batch settings pad j m with
      | .done next => batch settings pad k next
      | .halted cause next => .halted cause next := by
  induction j generalizing m with
  | zero => simp [batch]
  | succ j ih =>
    rw [Nat.succ_add, batch, batch]
    cases m.step settings pad with
    | done next => exact ih next
    | halted cause next => rfl

end ChipEight.Machine
