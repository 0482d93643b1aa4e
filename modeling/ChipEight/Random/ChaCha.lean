/-!
# ChaCha with twelve rounds

The stream of 32-bit words that a key of eight words stands for. Sixteen words are mixed into a
block: four constants, the key, a 64-bit block number and a 64-bit stream number, which is 0 here.
The words stand in four columns of four, and a round mixes the columns or the diagonals.

The stream is finite: it ends with the last block number. Past its end the words are 0, so a
reader never has to know where it ends.
-/

namespace ChipEight.ChaCha

/-- Turns the bits of a word to the left. -/
def rotateLeft (w bits : UInt32) : UInt32 := w <<< bits ||| w >>> (32 - bits)

/-- Four words that are mixed with each other. -/
structure Column where
  a : UInt32
  b : UInt32
  c : UInt32
  d : UInt32
deriving DecidableEq

/-- Mixes four words. -/
def Column.mix (q : Column) : Column :=
  let a := q.a + q.b
  let d := rotateLeft (q.d ^^^ a) 16
  let c := q.c + d
  let b := rotateLeft (q.b ^^^ c) 12
  let a := a + b
  let d := rotateLeft (d ^^^ a) 8
  let c := c + d
  let b := rotateLeft (b ^^^ c) 7
  ⟨a, b, c, d⟩

/-- Adds four words to four. -/
def Column.add (q r : Column) : Column := ⟨q.a + r.a, q.b + r.b, q.c + r.c, q.d + r.d⟩

/-- Sixteen words in four columns. -/
structure Block where
  p : Column
  q : Column
  r : Column
  s : Column
deriving DecidableEq

namespace Block

/-- Mixes each column. -/
def mix (b : Block) : Block := ⟨b.p.mix, b.q.mix, b.r.mix, b.s.mix⟩

/-- Turns the rows so that diagonals become columns. -/
def slant (b : Block) : Block :=
  ⟨⟨b.p.a, b.q.b, b.r.c, b.s.d⟩, ⟨b.q.a, b.r.b, b.s.c, b.p.d⟩,
    ⟨b.r.a, b.s.b, b.p.c, b.q.d⟩, ⟨b.s.a, b.p.b, b.q.c, b.r.d⟩⟩

/-- Turns the rows back. -/
def straighten (b : Block) : Block :=
  ⟨⟨b.p.a, b.s.b, b.r.c, b.q.d⟩, ⟨b.q.a, b.p.b, b.s.c, b.r.d⟩,
    ⟨b.r.a, b.q.b, b.p.c, b.s.d⟩, ⟨b.s.a, b.r.b, b.q.c, b.p.d⟩⟩

/-- Mixes the columns and then the diagonals. -/
def doubleRound (b : Block) : Block := b.mix.slant.mix.straighten

/-- Mixes a number of double rounds. -/
def rounds : Nat → Block → Block
  | 0, b => b
  | n + 1, b => rounds n b.doubleRound

/-- Adds a block to a block, word by word. -/
def add (b c : Block) : Block := ⟨b.p.add c.p, b.q.add c.q, b.r.add c.r, b.s.add c.s⟩

/-- The words, row after row. -/
def words (b : Block) : List UInt32 :=
  [b.p.a, b.q.a, b.r.a, b.s.a, b.p.b, b.q.b, b.r.b, b.s.b,
    b.p.c, b.q.c, b.r.c, b.s.c, b.p.d, b.q.d, b.r.d, b.s.d]

end Block

/-- What a block is mixed from. The constants spell `expand 32-byte k`. -/
def start (key : Nat → UInt32) (number : UInt64) : Block :=
  ⟨⟨0x61707865, key 0, key 4, number.toUInt32⟩,
    ⟨0x3320646e, key 1, key 5, (number >>> 32).toUInt32⟩,
    ⟨0x79622d32, key 2, key 6, 0⟩, ⟨0x6b206574, key 3, key 7, 0⟩⟩

/-- The block of a number. -/
def block (key : Nat → UInt32) (number : UInt64) : Block :=
  let first := start key number
  (first.rounds 6).add first

/-- Words in the whole stream of a key: sixteen for each of 2⁶⁴ block numbers. -/
def streamLength : Nat := 16 * 0x10000000000000000

/-- The word at a place of the stream. -/
def word (key : Nat → UInt32) (place : Nat) : UInt32 :=
  if place < streamLength then
    (block key (UInt64.ofNat (place / 16))).words.getD (place % 16) 0
  else
    0

theorem word_of_le (key : Nat → UInt32) {place : Nat} (h : streamLength ≤ place) :
    word key place = 0 :=
  if_neg (Nat.not_lt.mpr h)

/-! ## Keys from seeds -/

/-- One step of the congruential generator that spreads a seed over a key. -/
def spread (state : UInt64) : UInt64 := state * 6364136223846793005 + 11634580027462260723

/-- The word that a state of the generator gives: its high bits, folded and turned right by the
topmost five. -/
def permuted (state : UInt64) : UInt32 :=
  let folded := (((state >>> 18) ^^^ state) >>> 27).toUInt32
  let turn := (state >>> 59).toUInt32
  folded >>> turn ||| folded <<< (32 - turn)

/-- The state after some steps. -/
def spreadTimes (state : UInt64) : Nat → UInt64
  | 0 => state
  | n + 1 => spread (spreadTimes state n)

/-- The words of a seed's key. Only the first eight are used. -/
def keyOfSeed (seed : UInt64) (i : Nat) : UInt32 := permuted (spreadTimes seed (i + 1))

end ChipEight.ChaCha
