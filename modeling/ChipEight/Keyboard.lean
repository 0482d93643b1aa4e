/-!
# Keyboards

The keypad is laid over the left four columns of a keyboard.

```text
|1|2|3|C|      |1|2|3|4|
|4|5|6|D|  ->  |Q|W|E|R|
|7|8|9|E|  ->  |A|S|D|F|
|A|0|B|F|      |Z|X|C|V|
```

No other key has a place on the keypad; the digits of a numeric pad, which are keys of their own,
have none either. `Key.onPad_lt` says that a place on the keypad is one of the sixteen.
-/

namespace ChipEight

/-- A key of a keyboard. -/
inductive Key where
  /-- a digit in the row above the letters -/
  | digit (value : Nat)
  /-- a letter, in upper case -/
  | letter (symbol : Char)
  /-- any other key -/
  | other (name : String)
deriving DecidableEq

/-- The key of the keypad that a key stands for. -/
def Key.onPad : Key → Option UInt8
  | .digit 1 => some 0x1
  | .digit 2 => some 0x2
  | .digit 3 => some 0x3
  | .digit 4 => some 0xC
  | .letter 'Q' => some 0x4
  | .letter 'W' => some 0x5
  | .letter 'E' => some 0x6
  | .letter 'R' => some 0xD
  | .letter 'A' => some 0x7
  | .letter 'S' => some 0x8
  | .letter 'D' => some 0x9
  | .letter 'F' => some 0xE
  | .letter 'Z' => some 0xA
  | .letter 'X' => some 0x0
  | .letter 'C' => some 0xB
  | .letter 'V' => some 0xF
  | _ => none

/-- A key stands for one of the sixteen keys of the keypad or for none. -/
theorem Key.onPad_lt {key : Key} {symbol : UInt8} (h : key.onPad = some symbol) :
    symbol.toNat < 16 := by
  unfold Key.onPad at h
  split at h <;> cases h <;> decide

end ChipEight
