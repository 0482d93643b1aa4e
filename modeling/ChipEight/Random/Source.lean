import ChipEight.Random.ChaCha

/-!
# Random bytes

A source of random bytes is a stream of 32-bit words and a place in it. A byte is made from the
words at and after the place, and the place moves past the words that were used.

* A byte of the *full* range is the low byte of one word.
* A byte of the *limited* range, 0 to 254, is the word scaled down to that range. Of the 2³² words
  one has no fair share (`usable`); it is passed over and the next word is tried.

## Termination

Passing over words ends because the words of a stream are usable again and again
(`WordStream.recurs`). `WordStream.seek` recurses along the unusable words, and `seek_of_usable`
and `seek_of_not_usable` say what it finds.
-/

namespace ChipEight

/-- How many words there are. -/
def wordCount : Nat := 0x100000000

/-- A word, scaled from 2³² to 255 values, with a fraction of 32 bits. -/
def scaled (w : UInt32) : Nat := w.toNat * 255

/-- Whether a word may be used for a byte of the limited range: its fraction is not the largest
there is. -/
def usable (w : UInt32) : Bool := scaled w % wordCount < wordCount - 1

/-- An endless stream of words in which usable ones always come again. -/
structure WordStream where
  word : Nat → UInt32
  recurs : ∀ n, ∃ k, n ≤ k ∧ usable (word k) = true

namespace WordStream

/-- A place of a stream from which to look for a usable word. -/
structure Place (s : WordStream) where
  index : Nat

/-- Looking on from a place at an unusable word. -/
def Place.Next {s : WordStream} (next place : Place s) : Prop :=
  next.index = place.index + 1 ∧ usable (s.word place.index) = false

theorem Place.acc {s : WordStream} {k : Nat} (hk : usable (s.word k) = true) :
    ∀ d n, n + d = k → Acc (@Place.Next s) ⟨n⟩
  | 0, n, h => ⟨_, fun _ hm => by
      obtain rfl : n = k := h
      exact absurd hm.2 (by simp [hk])⟩
  | d + 1, n, h => ⟨_, fun ⟨m⟩ hm => by
      obtain rfl : m = n + 1 := hm.1
      exact Place.acc hk d (n + 1) (by omega)⟩

instance (s : WordStream) : WellFoundedRelation (Place s) where
  rel := Place.Next
  wf := ⟨fun ⟨n⟩ => by
    obtain ⟨k, hn, hk⟩ := s.recurs n
    exact Place.acc hk (k - n) n (by omega)⟩

/-- The first place from `n` on that has a usable word. -/
def seek (s : WordStream) (n : Nat) : Nat :=
  if h : usable (s.word n) then n else s.seek (n + 1)
termination_by (⟨n⟩ : Place s)
decreasing_by exact ⟨rfl, Bool.not_eq_true _ ▸ h⟩

theorem seek_of_usable {s : WordStream} {n : Nat} (h : usable (s.word n) = true) :
    s.seek n = n := by
  rw [seek, dif_pos h]

theorem seek_of_not_usable {s : WordStream} {n : Nat} (h : usable (s.word n) = false) :
    s.seek n = s.seek (n + 1) := by
  rw [seek, dif_neg (by simp [h])]

/-- The stream of a key. It is unusable at most up to its end, where it is 0. -/
def ofKey (key : Nat → UInt32) : WordStream where
  word := ChaCha.word key
  recurs n := ⟨max n ChaCha.streamLength, Nat.le_max_left _ _, by
    rw [ChaCha.word_of_le key (Nat.le_max_right _ _)]
    decide⟩

end WordStream

/-- A stream of words and the place of the next one. -/
structure Source where
  stream : WordStream
  place : Nat

namespace Source

/-- The source that a seed stands for. -/
def ofSeed (seed : UInt64) : Source := ⟨.ofKey (ChaCha.keyOfSeed seed), 0⟩

/-- A byte of the full range, 0 to 255. -/
def fullByte (source : Source) : UInt8 × Source :=
  ((source.stream.word source.place).toUInt8, { source with place := source.place + 1 })

/-- A byte of the limited range, 0 to 254. -/
def limitedByte (source : Source) : UInt8 × Source :=
  let found := source.stream.seek source.place
  (UInt8.ofNat (scaled (source.stream.word found) / wordCount), { source with place := found + 1 })

/-- A byte of the range that the settings ask for. -/
def byte (source : Source) (full : Bool) : UInt8 × Source :=
  if full then source.fullByte else source.limitedByte

@[simp] theorem stream_byte (source : Source) (full : Bool) :
    (source.byte full).2.stream = source.stream := by
  cases full <;> rfl

end Source

end ChipEight
