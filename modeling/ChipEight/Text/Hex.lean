/-!
# Hexadecimal text

Upper case hexadecimal digits with a least width, as the messages of the machine show words,
addresses and registers. A number that needs more digits than the width keeps all of them.

Main statement: `length_upper`, the digits are never fewer than the width.
-/

namespace ChipEight.Hex

/-- The upper case digits of `n`, filled with zeros on the left to `width` characters. -/
def upper (width n : Nat) : String :=
  String.ofList (((Nat.toDigits 16 n).map Char.toUpper).leftpad width '0')

/-- A text is as wide as asked for, or wider where the number needs it. -/
theorem length_upper (width n : Nat) :
    (upper width n).toList.length = max width (Nat.toDigits 16 n).length := by
  simp only [upper, String.toList_ofList, List.leftpad, List.length_append, List.length_replicate,
    List.length_map]
  omega

end ChipEight.Hex
