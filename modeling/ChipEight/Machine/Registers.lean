import ChipEight.Word

/-!
# Registers

The sixteen byte registers `V0` to `VF`. The view of the registers is `get`; `get_set` and
`get_fill` say what the operations do to it, and `ext_get` that nothing else is in them.
-/

namespace ChipEight

/-- The bytes of the registers. -/
structure Registers where
  bytes : Vector UInt8 16
deriving DecidableEq

namespace Registers

/-- All registers are 0. -/
def zero : Registers := ⟨Vector.replicate 16 0⟩

/-- The byte of a register. -/
def get (r : Registers) (x : Register) : UInt8 := r.bytes[x]

/-- Writes a register. -/
def set (r : Registers) (x : Register) (byte : UInt8) : Registers := ⟨r.bytes.set x byte⟩

/-- Writes the register of a number. A number past 15 names none. -/
def setNumbered (r : Registers) (number byte : UInt8) : Registers :=
  ⟨r.bytes.setIfInBounds number.toNat byte⟩

/-- Writes bytes to `V0` and the registers after it. -/
def fill (r : Registers) (bytes : List UInt8) : Registers :=
  ⟨Vector.ofFn fun i => bytes.getD i.val (r.get i)⟩

/-- The bytes from `V0` on. -/
def toList (r : Registers) : List UInt8 := r.bytes.toList

theorem ext_get {r s : Registers} (h : ∀ x, r.get x = s.get x) : r = s := by
  cases r
  cases s
  congr 1
  exact Vector.ext fun i hi => h ⟨i, hi⟩

@[simp] theorem get_zero (x : Register) : zero.get x = 0 := by
  simp [get, zero]

theorem get_set (r : Registers) (x y : Register) (byte : UInt8) :
    (r.set x byte).get y = if x = y then byte else r.get y := by
  simp [get, set, Vector.getElem_set, Fin.ext_iff]

theorem get_setNumbered (r : Registers) (number byte : UInt8) (y : Register) :
    (r.setNumbered number byte).get y = if number.toNat = y.val then byte else r.get y := by
  simp [get, setNumbered, Vector.getElem_setIfInBounds]

theorem get_fill (r : Registers) (bytes : List UInt8) (x : Register) :
    (r.fill bytes).get x = bytes.getD x.val (r.get x) := by
  simp [get, fill]

end Registers

end ChipEight
