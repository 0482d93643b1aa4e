/-!
# Words

A word is two bytes, the high one first. Read as an instruction it is four hexadecimal digits:

* the first digit is its family
* the second and third name the registers `x` and `y`
* the last is `n`, the last two are the byte `kk`, and the last three are the address `nnn`

`toNat_join` tells a word by its bytes and `toNat_eq_digits` by its digits.
-/

namespace ChipEight

/-- One of the sixteen registers. -/
abbrev Register := Fin 16

/-- The register that offsets jumps. -/
def v0 : Register := ⟨0, by decide⟩

/-- The register that reports carries, borrows and collisions. -/
def flag : Register := ⟨0xF, by decide⟩

namespace Word

/-- The word of two bytes. -/
def join (high low : UInt8) : UInt16 := UInt16.ofNat (high.toNat * 0x100 + low.toNat)

/-- The last digit of a number. -/
def digit (k : Nat) : Fin 16 := ⟨k % 16, Nat.mod_lt k (by decide)⟩

/-- The first digit. -/
def family (w : UInt16) : Fin 16 := digit (w.toNat / 0x1000)

/-- The second digit. -/
def x (w : UInt16) : Register := digit (w.toNat / 0x100)

/-- The third digit. -/
def y (w : UInt16) : Register := digit (w.toNat / 0x10)

/-- The last digit. -/
def n (w : UInt16) : Fin 16 := digit w.toNat

/-- The last two digits. -/
def kk (w : UInt16) : UInt8 := UInt8.ofNat w.toNat

/-- The last three digits. -/
def nnn (w : UInt16) : UInt16 := UInt16.ofNat (w.toNat % 0x1000)

theorem toNat_join (high low : UInt8) : (join high low).toNat = high.toNat * 0x100 + low.toNat := by
  have hh := high.toNat_lt
  have hl := low.toNat_lt
  simp only [join, UInt16.toNat_ofNat']
  omega

theorem toNat_nnn (w : UInt16) : (nnn w).toNat = w.toNat % 0x1000 := by
  simp only [nnn, UInt16.toNat_ofNat']
  omega

/-- A word is its four digits. -/
theorem toNat_eq_digits (w : UInt16) :
    w.toNat = (family w).val * 0x1000 + (x w).val * 0x100 + (y w).val * 0x10 + (n w).val := by
  have hw := w.toNat_lt
  simp only [family, x, y, n, digit]
  omega

end Word

end ChipEight
