/-!
# The built-in font

Sixteen glyphs, one for each hexadecimal digit. A glyph is five rows of a sprite and uses the left
four columns of each: `0` is `F0 90 90 90 F0`, a box.
-/

namespace ChipEight.Font

/-- Rows of a glyph. The glyph of the digit `d` starts `glyphRows * d` bytes into the font. -/
def glyphRows : Nat := 5

/-- The rows of all glyphs, digit after digit. -/
def glyphs : List UInt8 := [
  0xF0, 0x90, 0x90, 0x90, 0xF0,
  0x20, 0x60, 0x20, 0x20, 0x70,
  0xF0, 0x10, 0xF0, 0x80, 0xF0,
  0xF0, 0x10, 0xF0, 0x10, 0xF0,
  0x90, 0x90, 0xF0, 0x10, 0x10,
  0xF0, 0x80, 0xF0, 0x10, 0xF0,
  0xF0, 0x80, 0xF0, 0x90, 0xF0,
  0xF0, 0x10, 0x20, 0x40, 0x40,
  0xF0, 0x90, 0xF0, 0x90, 0xF0,
  0xF0, 0x90, 0xF0, 0x10, 0xF0,
  0xF0, 0x90, 0xF0, 0x90, 0x90,
  0xE0, 0x90, 0xE0, 0x90, 0xE0,
  0xF0, 0x80, 0x80, 0x80, 0xF0,
  0xE0, 0x90, 0x90, 0x90, 0xE0,
  0xF0, 0x80, 0xF0, 0x80, 0xF0,
  0xF0, 0x80, 0xF0, 0x80, 0x80]

theorem length_glyphs : glyphs.length = 16 * glyphRows := rfl

end ChipEight.Font
