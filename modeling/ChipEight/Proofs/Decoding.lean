import ChipEight.Machine.Instruction

/-!
# Which words spell which instructions

`Instruction.ofWord` looks at the digits of a word one after the other. `Word.Spells` is the table
of the instruction set: one line for each form of word, with no order among the lines.

* `ofWord_eq_iff`: every word spells exactly one instruction, the one that it is read as
* `target_eq_nnn`: addresses in instructions are the last three digits of their words
-/

namespace ChipEight

namespace Word

open Instruction

/-- The table of the instruction set. -/
inductive Spells (w : UInt16) : Instruction → Prop
  | clear (h : w = 0x00E0) : Spells w .clear
  | ret (h : w = 0x00EE) : Spells w .ret
  | idleSystem (h : family w = 0x0) (hc : w ≠ 0x00E0) (hr : w ≠ 0x00EE) : Spells w .idle
  | jump (h : family w = 0x1) : Spells w (.jump (nnn w))
  | call (h : family w = 0x2) : Spells w (.call (nnn w))
  | skipEqual (h : family w = 0x3) : Spells w (.skipEqual (x w) (kk w))
  | skipUnequal (h : family w = 0x4) : Spells w (.skipUnequal (x w) (kk w))
  | skipSame (h : family w = 0x5) : Spells w (.skipSame (x w) (y w))
  | load (h : family w = 0x6) : Spells w (.load (x w) (kk w))
  | add (h : family w = 0x7) : Spells w (.add (x w) (kk w))
  | combine {o : Operator} (h : family w = 0x8) (ho : operator? (n w) = some o) :
      Spells w (.combine o (x w) (y w))
  | idleArithmetic (h : family w = 0x8) (ho : operator? (n w) = none) : Spells w .idle
  | skipDifferent (h : family w = 0x9) : Spells w (.skipDifferent (x w) (y w))
  | point (h : family w = 0xA) : Spells w (.point (nnn w))
  | jumpOffset (h : family w = 0xB) : Spells w (.jumpOffset (nnn w))
  | random (h : family w = 0xC) : Spells w (.random (x w) (kk w))
  | draw (h : family w = 0xD) : Spells w (.draw (x w) (y w) (n w))
  | skipPressed (h : family w = 0xE) (hk : kk w = 0x9E) : Spells w (.skipPressed (x w))
  | skipReleased (h : family w = 0xE) (hk : kk w = 0xA1) : Spells w (.skipReleased (x w))
  | idleKeys (h : family w = 0xE) (hk : kk w ∉ [0x9E, 0xA1]) : Spells w .idle
  | readDelay (h : family w = 0xF) (hk : kk w = 0x07) : Spells w (.readDelay (x w))
  | awaitKey (h : family w = 0xF) (hk : kk w = 0x0A) : Spells w (.awaitKey (x w))
  | setDelay (h : family w = 0xF) (hk : kk w = 0x15) : Spells w (.setDelay (x w))
  | setSound (h : family w = 0xF) (hk : kk w = 0x18) : Spells w (.setSound (x w))
  | advance (h : family w = 0xF) (hk : kk w = 0x1E) : Spells w (.advance (x w))
  | pointGlyph (h : family w = 0xF) (hk : kk w = 0x29) : Spells w (.pointGlyph (x w))
  | storeDecimal (h : family w = 0xF) (hk : kk w = 0x33) : Spells w (.storeDecimal (x w))
  | storeRegisters (h : family w = 0xF) (hk : kk w = 0x55) : Spells w (.storeRegisters (x w))
  | loadRegisters (h : family w = 0xF) (hk : kk w = 0x65) : Spells w (.loadRegisters (x w))
  | idleDevices (h : family w = 0xF)
      (hk : kk w ∉ [0x07, 0x0A, 0x15, 0x18, 0x1E, 0x29, 0x33, 0x55, 0x65]) : Spells w .idle

end Word

namespace Instruction

open Word

/-! ## Reading a word finds a line of the table -/

theorem spells_ofSystem {w : UInt16} (h : family w = 0x0) : Spells w (ofSystem w) := by
  unfold ofSystem
  split
  · next hc => exact .clear hc
  · next hc =>
    split
    · next hr => exact .ret hr
    · next hr => exact .idleSystem h hc hr

theorem spells_ofArithmetic {w : UInt16} (h : family w = 0x8) : Spells w (ofArithmetic w) := by
  unfold ofArithmetic
  split
  · next ho => exact .combine h ho
  · next ho => exact .idleArithmetic h ho

theorem spells_ofKeys {w : UInt16} (h : family w = 0xE) : Spells w (ofKeys w) := by
  unfold ofKeys
  split
  · next hk => exact .skipPressed h hk
  · split
    · next hk => exact .skipReleased h hk
    · exact .idleKeys h (by simp [*])

theorem spells_ofDevices {w : UInt16} (h : family w = 0xF) : Spells w (ofDevices w) := by
  unfold ofDevices
  repeat' split
  · next hk => exact .readDelay h hk
  · next hk => exact .awaitKey h hk
  · next hk => exact .setDelay h hk
  · next hk => exact .setSound h hk
  · next hk => exact .advance h hk
  · next hk => exact .pointGlyph h hk
  · next hk => exact .storeDecimal h hk
  · next hk => exact .storeRegisters h hk
  · next hk => exact .loadRegisters h hk
  · exact .idleDevices h (by simp [*])

theorem spells_ofWord (w : UInt16) : Spells w (ofWord w) := by
  unfold ofWord
  split
  · next h => exact spells_ofSystem h
  · next h => exact .jump h
  · next h => exact .call h
  · next h => exact .skipEqual h
  · next h => exact .skipUnequal h
  · next h => exact .skipSame h
  · next h => exact .load h
  · next h => exact .add h
  · next h => exact spells_ofArithmetic h
  · next h => exact .skipDifferent h
  · next h => exact .point h
  · next h => exact .jumpOffset h
  · next h => exact .random h
  · next h => exact .draw h
  · next h => exact spells_ofKeys h
  · -- fifteen first digits are excluded, so one is left
    exact spells_ofDevices (by grind)

/-! ## No two lines of the table apply to one word -/

theorem ofWord_eq_of_spells {w : UInt16} {i : Instruction} (h : Spells w i) : ofWord w = i := by
  cases h with
  | clear h => subst h; rfl
  | ret h => subst h; rfl
  | idleSystem h hc hr => simp [ofWord, h, ofSystem, hc, hr]
  | combine h ho => simp [ofWord, h, ofArithmetic, ho]
  | idleArithmetic h ho => simp [ofWord, h, ofArithmetic, ho]
  | skipPressed h hk | skipReleased h hk => simp [ofWord, h, ofKeys, hk]
  | idleKeys h hk =>
    simp only [List.mem_cons, List.not_mem_nil, or_false, not_or] at hk
    simp [ofWord, h, ofKeys, hk]
  | readDelay h hk | awaitKey h hk | setDelay h hk | setSound h hk | advance h hk
  | pointGlyph h hk | storeDecimal h hk | storeRegisters h hk | loadRegisters h hk =>
    simp [ofWord, h, ofDevices, hk]
  | idleDevices h hk =>
    simp only [List.mem_cons, List.not_mem_nil, or_false, not_or] at hk
    simp [ofWord, h, ofDevices, hk]
  | _ h => simp [ofWord, h]

/-- Every word spells exactly one instruction. -/
theorem ofWord_eq_iff {w : UInt16} {i : Instruction} : ofWord w = i ↔ Spells w i := by
  constructor
  · rintro rfl
    exact spells_ofWord w
  · exact ofWord_eq_of_spells

/-! ## Addresses -/

/-- The address in an instruction. -/
def target? : Instruction → Option UInt16
  | .jump target | .call target | .point target | .jumpOffset target => some target
  | _ => none

theorem target_eq_nnn {w target : UInt16} (h : (ofWord w).target? = some target) :
    target = nnn w := by
  have hs := spells_ofWord w
  revert h
  generalize ofWord w = i at hs
  cases hs <;> simp [target?, eq_comm]

/-- An address in an instruction has three digits. -/
theorem target_lt {w target : UInt16} (h : (ofWord w).target? = some target) :
    target.toNat < 0x1000 := by
  rw [target_eq_nnn h, toNat_nnn]
  omega

end Instruction

end ChipEight
