import ChipEight.Machine.Instruction
import ChipEight.Machine.State

/-!
# Arithmetic on registers

What the operators of family `8` do to the registers `Vx`, `Vy` and the flag `VF`. The order in
which `Vx` and the flag are written shows when one of the operands is the flag itself:

* addition writes `Vx` and then the flag
* the other operators that report something write the flag first and then compute `Vx` from the
  registers as they stand

`get_apply_of_ne` says that no other register changes.
-/

namespace ChipEight.Operator

/-- Writes the flag. -/
def report (r : Registers) (value : UInt8) : Registers := r.set flag value

/-- 1 for a condition that holds, 0 for one that does not. -/
def bit (condition : Bool) : UInt8 := if condition then 1 else 0

/-- The registers after an operator was applied to `Vx` and `Vy`. The carry of a sum is reported
only if `carries` is set, and is 0 otherwise. -/
def apply (carries : Bool) (r : Registers) (x y : Register) : Operator → Registers
  | .copy => r.set x (r.get y)
  | .or => r.set x (r.get x ||| r.get y)
  | .and => r.set x (r.get x &&& r.get y)
  | .xor => r.set x (r.get x ^^^ r.get y)
  | .add =>
    let carry := bit (carries && 0x100 ≤ (r.get x).toNat + (r.get y).toNat)
    report (r.set x (r.get x + r.get y)) carry
  | .subtract =>
    let r := report r (bit (r.get y < r.get x))
    r.set x (r.get x - r.get y)
  | .halve =>
    let r := report r (r.get x &&& 1)
    r.set x (r.get x >>> 1)
  | .subtractFrom =>
    let r := report r (bit (r.get x < r.get y))
    r.set x (r.get y - r.get x)
  | .double =>
    let r := report r (r.get x &&& 0x80)
    r.set x (r.get x <<< 1)

/-- No operator changes a register other than `Vx` and the flag. -/
theorem get_apply_of_ne {carries : Bool} {r : Registers} {x y z : Register} (o : Operator)
    (hx : x ≠ z) (hf : flag ≠ z) : (apply carries r x y o).get z = r.get z := by
  cases o <;> simp [apply, report, Registers.get_set, hx, hf]

end ChipEight.Operator
