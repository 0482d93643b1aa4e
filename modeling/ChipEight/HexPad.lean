/-!
# The hexadecimal keypad

Sixteen keys, `0` to `F`, each up or down. Keys are named by bytes. A byte past `F` names no key:
pressing or releasing it does nothing and it is never down.

```text
|1|2|3|C|
|4|5|6|D|
|7|8|9|E|
|A|0|B|F|
```

The view of a keypad is `isDown`; `isDown_press` and `isDown_release` say what the two operations
do to it.
-/

namespace ChipEight

/-- Keys of the keypad. -/
def keyCount : Nat := 16

/-- Which keys are down. -/
structure HexPad where
  down : Vector Bool keyCount
deriving DecidableEq

namespace HexPad

/-- No key is down. -/
def released : HexPad := ⟨Vector.replicate keyCount false⟩

/-- Puts a key down. -/
def press (pad : HexPad) (key : UInt8) : HexPad := ⟨pad.down.setIfInBounds key.toNat true⟩

/-- Lets a key up. -/
def release (pad : HexPad) (key : UInt8) : HexPad := ⟨pad.down.setIfInBounds key.toNat false⟩

/-- Whether a key is down. -/
def isDown (pad : HexPad) (key : UInt8) : Bool :=
  if h : key.toNat < keyCount then pad.down[key.toNat] else false

theorem isDown_of_le {pad : HexPad} {key : UInt8} (h : keyCount ≤ key.toNat) :
    pad.isDown key = false := by
  simp [isDown, Nat.not_lt.mpr h]

@[simp] theorem isDown_released (key : UInt8) : released.isDown key = false := by
  simp [isDown, released]

theorem isDown_press (pad : HexPad) (key other : UInt8) :
    (pad.press key).isDown other =
      if key = other ∧ other.toNat < keyCount then true else pad.isDown other := by
  unfold press isDown
  by_cases h : other.toNat < keyCount
  · simp [h, Vector.getElem_setIfInBounds, UInt8.toNat_inj]
  · simp [h]

theorem isDown_release (pad : HexPad) (key other : UInt8) :
    (pad.release key).isDown other = if key = other then false else pad.isDown other := by
  unfold release isDown
  by_cases h : other.toNat < keyCount
  · simp [h, Vector.getElem_setIfInBounds, UInt8.toNat_inj]
  · simp [h]

end HexPad

end ChipEight
