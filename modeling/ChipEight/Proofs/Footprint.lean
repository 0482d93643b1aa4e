import Mathlib.Data.List.GetD
import ChipEight.Proofs.History

/-!
# Footprints

What a word can change, read off its digits. `Word.Reaches` is a table with one line for each part
of a machine that a form of word may change, and `Word.LeadsTo` is the table of where words send
the counter. A word that is on no line of the first changes nothing but the counter.

* `same_of_not_reaches`: a part that a word does not reach stays as it is
* `leadsTo_iff`: a word that is carried out leads to one place, the one in the table
* `word_footprint`: both for every word and every machine
-/

namespace ChipEight

/-- A part of a machine. The counter is none, since every word moves it. -/
inductive Part where
  | register (z : Register)
  | index
  | calls
  | delay
  | sound
  /-- the byte at an address of memory -/
  | byte (address : Nat)
  | frame
  | awaiting
  | random

/-- Whether a part is the same in two machines. -/
def Part.Same (m m' : Machine) : Part → Prop
  | .register z => m'.registers.get z = m.registers.get z
  | .index => m'.index = m.index
  | .calls => m'.calls = m.calls
  | .delay => m'.delay = m.delay
  | .sound => m'.sound = m.sound
  | .byte a => m'.memory.byteAt a = m.memory.byteAt a
  | .frame => m'.frame = m.frame
  | .awaiting => m'.awaiting = m.awaiting
  | .random => m'.random = m.random

/-- Nothing of a machine is left out: its parts and its counter are all of it. -/
theorem Part.eq_of_same {m m' : Machine} (h : ∀ part : Part, part.Same m m') :
    m' = { m with counter := m'.counter } := by
  have hregisters : m'.registers = m.registers := Registers.ext_get fun z => h (.register z)
  have hmemory : m'.memory = m.memory := Memory.ext_byteAt fun a _ => h (.byte a)
  have hindex : m'.index = m.index := h .index
  have hcalls : m'.calls = m.calls := h .calls
  have hdelay : m'.delay = m.delay := h .delay
  have hsound : m'.sound = m.sound := h .sound
  have hframe : m'.frame = m.frame := h .frame
  have hawaiting : m'.awaiting = m.awaiting := h .awaiting
  have hrandom : m'.random = m.random := h .random
  rw [← hregisters, ← hmemory, ← hindex, ← hcalls, ← hdelay, ← hsound, ← hframe, ← hawaiting,
    ← hrandom]

namespace Word

variable (w : UInt16) (pad : HexPad) (m : Machine)

/-- The parts of a machine that a word may change. -/
inductive Reaches : Part → Prop
  | clear (h : w = 0x00E0) : Reaches .frame
  | ret (h : w = 0x00EE) : Reaches .calls
  | call (h : family w = 0x2) : Reaches .calls
  | load (h : family w = 0x6) : Reaches (.register (x w))
  | add (h : family w = 0x7) : Reaches (.register (x w))
  | combine (h : family w = 0x8) (hn : n w ∈ [0x0, 0x1, 0x2, 0x3]) : Reaches (.register (x w))
  | report {z : Register} (h : family w = 0x8) (hn : n w ∈ [0x4, 0x5, 0x6, 0x7, 0xE])
      (hz : z = x w ∨ z = flag) : Reaches (.register z)
  | point (h : family w = 0xA) : Reaches .index
  | random (h : family w = 0xC) : Reaches (.register (x w))
  | source (h : family w = 0xC) : Reaches .random
  | draw (h : family w = 0xD) : Reaches .frame
  | collide (h : family w = 0xD) : Reaches (.register flag)
  | readDelay (h : family w = 0xF) (hk : kk w = 0x07) : Reaches (.register (x w))
  | awaitKey (h : family w = 0xF) (hk : kk w = 0x0A) : Reaches .awaiting
  | setDelay (h : family w = 0xF) (hk : kk w = 0x15) : Reaches .delay
  | setSound (h : family w = 0xF) (hk : kk w = 0x18) : Reaches .sound
  | advance (h : family w = 0xF) (hk : kk w = 0x1E) : Reaches .index
  | pointGlyph (h : family w = 0xF) (hk : kk w = 0x29) : Reaches .index
  | storeDecimal {a : Nat} (h : family w = 0xF) (hk : kk w = 0x33)
      (ha : m.index.toNat ≤ a ∧ a < m.index.toNat + 3) : Reaches (.byte a)
  | storeRegisters {a : Nat} (h : family w = 0xF) (hk : kk w = 0x55)
      (ha : m.index.toNat ≤ a ∧ a ≤ m.index.toNat + x w) : Reaches (.byte a)
  | loadRegisters {z : Register} (h : family w = 0xF) (hk : kk w = 0x65) (hz : z ≤ x w) :
      Reaches (.register z)

/-- The words that pass over the next one, each with its condition. -/
inductive Skips : Prop
  | equal (h : family w = 0x3) (hv : m.registers.get (x w) = kk w)
  | unequal (h : family w = 0x4) (hv : m.registers.get (x w) ≠ kk w)
  | same (h : family w = 0x5) (hv : m.registers.get (x w) = m.registers.get (y w))
  | different (h : family w = 0x9) (hv : m.registers.get (x w) ≠ m.registers.get (y w))
  | pressed (h : family w = 0xE) (hk : kk w = 0x9E)
      (hd : pad.isDown (m.registers.get (x w)) = true)
  | released (h : family w = 0xE) (hk : kk w = 0xA1)
      (hd : pad.isDown (m.registers.get (x w)) = false)

/-- Where a word that was fetched at the counter of a machine sends it. -/
inductive LeadsTo : UInt16 → Prop
  | ret {back : UInt16} {calls : List UInt16} (h : w = 0x00EE) (hc : m.calls = back :: calls) :
      LeadsTo back
  | jump (h : family w = 0x1) : LeadsTo (nnn w)
  | call (h : family w = 0x2) : LeadsTo (nnn w)
  | offset {target : UInt16} (h : family w = 0xB)
      (ht : target.toNat = (nnn w).toNat + (m.registers.get v0).toNat) : LeadsTo target
  | skip (h : Skips w pad m) : LeadsTo (m.counter + 4)
  | next (hr : w ≠ 0x00EE) (hf : family w ∉ [0x1, 0x2, 0xB]) (hs : ¬ Skips w pad m) :
      LeadsTo (m.counter + 2)

end Word

/-! ## Registers and memory -/

theorem Memory.byteAt_overwrite_of_outside {memory : Memory} {start a : Nat} {bytes : List UInt8}
    (h : ¬ (start ≤ a ∧ a < start + bytes.length)) :
    (memory.overwrite start bytes).byteAt a = memory.byteAt a := by
  rw [byteAt_overwrite]
  by_cases hs : start ≤ a ∧ a < memorySize
  · rw [if_pos hs, List.getD_eq_default _ _ (by omega)]
  · rw [if_neg hs]

theorem Memory.byteAt_overwrite_of_lt {memory : Memory} {start k : Nat} {bytes : List UInt8}
    (hfit : start + bytes.length ≤ memorySize) (hk : k < bytes.length) :
    (memory.overwrite start bytes).byteAt (start + k) = bytes[k] := by
  rw [byteAt_overwrite, if_pos (by omega), Nat.add_sub_cancel_left, List.getD_eq_getElem _ _ hk]

/-- The operators of the digits 0 to 3 write `Vx` alone, the others the flag as well. -/
theorem Operator.get_apply_of_digit {carries : Bool} {r : Registers} {x y z : Register}
    {d : Fin 16} {o : Operator} (ho : Instruction.operator? d = some o)
    (hplain : d ∈ [0x0, 0x1, 0x2, 0x3] → x ≠ z)
    (hreport : d ∈ [0x4, 0x5, 0x6, 0x7, 0xE] → x ≠ z ∧ flag ≠ z) :
    (o.apply carries r x y).get z = r.get z := by
  have hd : ∀ d : Fin 16, Instruction.operator? d = some o →
      d ∈ if o ∈ [.copy, .or, .and, .xor] then [0x0, 0x1, 0x2, 0x3] else
        ([0x4, 0x5, 0x6, 0x7, 0xE] : List (Fin 16)) := by
    cases o <;> decide
  cases o with
  | copy | or | and | xor =>
    have hx : x ≠ z := hplain (hd d ho)
    simp only [apply, Registers.get_set, if_neg hx]
  | add | subtract | halve | subtractFrom | double =>
    obtain ⟨hx, hf⟩ := hreport (hd d ho)
    exact get_apply_of_ne _ hx hf

namespace Machine

open Word Instruction

variable {settings : Settings} {pad : HexPad} {m m' : Machine} {w : UInt16} {i : Instruction}

/-! ## Parts that a word does not reach -/

theorem get_registersAfter_of_not_reaches {z : Register} (hs : Spells w i)
    (h : ¬ Reaches w m (.register z)) :
    (i.registersAfter settings m.past).get z = m.registers.get z := by
  -- a line of the table that writes one register would reach it
  have hset : ∀ (x : Register) (byte : UInt8), Reaches w m (.register x) →
      (m.registers.set x byte).get z = m.registers.get z := by
    intro x byte hx
    refine (Registers.get_set _ _ _ _).trans (if_neg ?_)
    rintro rfl
    exact h hx
  cases hs with
  | load hw => exact hset _ _ (.load hw)
  | add hw => exact hset _ _ (.add hw)
  | random hw => exact hset _ _ (.random hw)
  | draw hw => exact hset _ _ (.collide hw)
  | readDelay hw hk => exact hset _ _ (.readDelay hw hk)
  | combine hw ho =>
    refine Operator.get_apply_of_digit ho ?_ ?_
    · rintro hn rfl
      exact h (.combine hw hn)
    · intro hn
      exact ⟨fun hx => h (.report hw hn (.inl hx.symm)), fun hf => h (.report hw hn (.inr hf.symm))⟩
  | loadRegisters hw hk =>
    have hz : (x w).val < z.val := Nat.lt_of_not_le fun hle => h (.loadRegisters hw hk hle)
    refine (Registers.get_fill _ _ _).trans (List.getD_eq_default _ _ ?_)
    simp only [pointed, List.length_map, List.length_range]
    omega
  | _ => rfl

theorem byteAt_memoryAfter_of_not_reaches {a : Nat} (hs : Spells w i)
    (h : ¬ Reaches w m (.byte a)) :
    (i.memoryAfter m.past).byteAt a = m.memory.byteAt a := by
  cases hs with
  | storeDecimal hw hk =>
    exact Memory.byteAt_overwrite_of_outside fun ha => h (.storeDecimal hw hk ha)
  | storeRegisters hw hk =>
    refine Memory.byteAt_overwrite_of_outside fun ha => h (.storeRegisters hw hk ?_)
    rw [length_stored] at ha
    exact ⟨ha.1, Nat.le_of_lt_succ ha.2⟩
  | _ => rfl

/-- A part that a word does not reach stays as it is. -/
theorem same_of_not_reaches {part : Part} (h : ¬ Reaches w m part) :
    part.Same m (m.after settings pad w) := by
  show part.Same m ((ofWord w).effect settings pad m.past)
  have hs := spells_ofWord w
  generalize ofWord w = i at hs
  cases part with
  | register z => exact get_registersAfter_of_not_reaches hs h
  | byte a => exact byteAt_memoryAfter_of_not_reaches hs h
  | index =>
    show i.indexAfter m.past = m.index
    cases hs with
    | point hw => exact absurd (.point hw) h
    | advance hw hk => exact absurd (.advance hw hk) h
    | pointGlyph hw hk => exact absurd (.pointGlyph hw hk) h
    | _ => rfl
  | calls =>
    show i.callsAfter m.past = m.calls
    cases hs with
    | ret hw => exact absurd (.ret hw) h
    | call hw => exact absurd (.call hw) h
    | _ => rfl
  | delay =>
    show i.delayAfter m.past = m.delay
    cases hs with
    | setDelay hw hk => exact absurd (.setDelay hw hk) h
    | _ => rfl
  | sound =>
    show i.soundAfter m.past = m.sound
    cases hs with
    | setSound hw hk => exact absurd (.setSound hw hk) h
    | _ => rfl
  | frame =>
    show i.frameAfter m.past = m.frame
    cases hs with
    | clear hw => exact absurd (.clear hw) h
    | draw hw => exact absurd (.draw hw) h
    | _ => rfl
  | awaiting =>
    show i.awaitingAfter m.past = m.awaiting
    cases hs with
    | awaitKey hw hk => exact absurd (.awaitKey hw hk) h
    | _ => rfl
  | random =>
    show i.randomAfter settings m.past = m.random
    cases hs with
    | random hw => exact absurd (.source hw) h
    | _ => rfl

/-! ## Where words lead -/

theorem skips_iff (hs : Spells w i) : i.skips pad m = true ↔ Skips w pad m := by
  constructor
  · intro h
    cases hs with
    | skipEqual hw => exact .equal hw (by simpa [skips] using h)
    | skipUnequal hw => exact .unequal hw (by simpa [skips] using h)
    | skipSame hw => exact .same hw (by simpa [skips] using h)
    | skipDifferent hw => exact .different hw (by simpa [skips] using h)
    | skipPressed hw hk => exact .pressed hw hk h
    | skipReleased hw hk => exact .released hw hk (by simpa [skips] using h)
    | _ => cases h
  · intro h
    rw [← ofWord_eq_of_spells hs]
    cases h with
    | equal hw hv => simp [ofWord_eq_of_spells (.skipEqual hw), skips, hv]
    | unequal hw hv => simp [ofWord_eq_of_spells (.skipUnequal hw), skips, hv]
    | same hw hv => simp [ofWord_eq_of_spells (.skipSame hw), skips, hv]
    | different hw hv => simp [ofWord_eq_of_spells (.skipDifferent hw), skips, hv]
    | pressed hw hk hd => simp [ofWord_eq_of_spells (.skipPressed hw hk), skips, hd]
    | released hw hk hd => simp [ofWord_eq_of_spells (.skipReleased hw hk), skips, hd]

/-- No word that skips jumps or returns. -/
theorem straight_of_skips (h : Skips w pad m) :
    w ≠ 0x00EE ∧ family w ∉ ([0x1, 0x2, 0xB] : List (Fin 16)) := by
  have hw : family w ∈ ([0x3, 0x4, 0x5, 0x9, 0xE] : List (Fin 16)) := by
    cases h with
    | equal hw | unequal hw | same hw | different hw | pressed hw | released hw => simp [hw]
  have hall : ∀ d : Fin 16, d ∈ ([0x3, 0x4, 0x5, 0x9, 0xE] : List (Fin 16)) →
      d ≠ family 0x00EE ∧ d ∉ ([0x1, 0x2, 0xB] : List (Fin 16)) := by decide
  obtain ⟨hr, hf⟩ := hall _ hw
  exact ⟨fun he => hr (congrArg family he), hf⟩

/-- Words that neither jump nor return go on with the next word or with the one after it. -/
theorem counterAfter_of_straight (hs : Spells w i) (hr : w ≠ 0x00EE)
    (hf : family w ∉ ([0x1, 0x2, 0xB] : List (Fin 16))) :
    i.counterAfter pad m.past = if i.skips pad m then m.counter + 4 else m.counter + 2 := by
  have hfour : m.past.counter + 2 = m.counter + 4 := by
    show m.counter + 2 + 2 = m.counter + 4
    rw [UInt16.add_assoc]
    rfl
  rw [← hfour]
  cases hs with
  | ret hw => exact absurd hw hr
  | jump hw | call hw | jumpOffset hw => simp [hw] at hf
  | _ => rfl

theorem offset_eq_iff {target : UInt16} :
    nnn w + (m.registers.get v0).toUInt16 = target ↔
      target.toNat = (nnn w).toNat + (m.registers.get v0).toNat := by
  have hsum : (nnn w + (m.registers.get v0).toUInt16).toNat =
      (nnn w).toNat + (m.registers.get v0).toNat := by
    have hv := (m.registers.get v0).toNat_lt
    rw [UInt16.toNat_add, UInt8.toNat_toUInt16, toNat_nnn]
    omega
  rw [← UInt16.toNat_inj, hsum, eq_comm]

theorem eq_of_leadsTo {target : UInt16} (h : LeadsTo w pad m target) :
    target = (m.after settings pad w).counter := by
  show target = (ofWord w).counterAfter pad m.past
  cases h with
  | ret hw hc =>
    rw [ofWord_eq_of_spells (.ret hw)]
    show target = m.calls.headD _
    rw [hc]
    rfl
  | jump hw =>
    rw [ofWord_eq_of_spells (.jump hw)]
    rfl
  | call hw =>
    rw [ofWord_eq_of_spells (.call hw)]
    rfl
  | offset hw ht =>
    rw [ofWord_eq_of_spells (.jumpOffset hw)]
    exact (offset_eq_iff.mpr ht).symm
  | skip hskip =>
    obtain ⟨hr, hf⟩ := straight_of_skips hskip
    rw [counterAfter_of_straight (spells_ofWord w) hr hf,
      if_pos ((skips_iff (spells_ofWord w)).mpr hskip)]
  | next hr hf hskip =>
    rw [counterAfter_of_straight (spells_ofWord w) hr hf,
      if_neg fun h => hskip ((skips_iff (spells_ofWord w)).mp h)]

theorem leadsTo_counter_after (ho : m.obstacle? settings w = none) :
    LeadsTo w pad m (m.after settings pad w).counter := by
  show LeadsTo w pad m ((ofWord w).counterAfter pad m.past)
  by_cases hr : w = 0x00EE
  · unfold obstacle? at ho
    rw [ofWord_eq_of_spells (.ret hr)] at ho ⊢
    cases hc : m.calls with
    | nil => simp [Instruction.obstacle?, hc] at ho
    | cons back calls =>
      show LeadsTo w pad m (m.calls.headD _)
      rw [hc]
      exact .ret hr hc
  · by_cases hf : family w ∈ ([0x1, 0x2, 0xB] : List (Fin 16))
    · simp only [List.mem_cons, List.not_mem_nil, or_false] at hf
      rcases hf with hw | hw | hw
      · rw [ofWord_eq_of_spells (.jump hw)]
        exact .jump hw
      · rw [ofWord_eq_of_spells (.call hw)]
        exact .call hw
      · rw [ofWord_eq_of_spells (.jumpOffset hw)]
        exact .offset hw (offset_eq_iff.mp rfl)
    · rw [counterAfter_of_straight (spells_ofWord w) hr hf]
      by_cases hskip : Skips w pad m
      · rw [if_pos ((skips_iff (spells_ofWord w)).mpr hskip)]
        exact .skip hskip
      · rw [if_neg fun h => hskip ((skips_iff (spells_ofWord w)).mp h)]
        exact .next hr hf hskip

/-- A word that is carried out leads to one place, the one in the table. -/
theorem leadsTo_iff {target : UInt16} (ho : m.obstacle? settings w = none) :
    LeadsTo w pad m target ↔ target = (m.after settings pad w).counter := by
  constructor
  · exact eq_of_leadsTo
  · rintro rfl
    exact leadsTo_counter_after ho

end Machine

/-! ## Random bytes -/

theorem WordStream.le_seek (s : WordStream) (n : Nat) : n ≤ s.seek n := by
  induction n using seek.induct s with
  | case1 n h => exact Nat.le_of_eq (seek_of_usable h).symm
  | case2 n h ih =>
    rw [seek_of_not_usable (Bool.eq_false_iff.mpr h)]
    omega

/-- Drawing a byte uses up at least one word of the stream. -/
theorem Source.place_lt_byte (source : Source) (full : Bool) :
    source.place < (source.byte full).2.place := by
  cases full with
  | true => exact Nat.lt_succ_self _
  | false => exact Nat.lt_succ_of_le (source.stream.le_seek source.place)

/-! ## Words on machines and consoles -/

namespace Console

theorem pad_tick (c : Console) : c.tick.console.pad = c.pad := by
  cases hf : c.fault with
  | some cause => rw [tick_of_fault hf]
  | none =>
    cases hk : c.awaitsKey with
    | true => rw [tick_of_awaitsKey hf hk]
    | false =>
      rw [console_tick hf hk]
      cases c.runBatch <;> rfl

/-- A word that is carried out changes only the parts that its form reaches, so one of no such form
changes nothing but the counter. The counter goes where the table says and nowhere else. The words
of family `C` use up random words, and no others do. On a console a word changes the machine alone:
the keypad stays as it is, over a word as over a tick. -/
theorem word_footprint :
    (∀ settings pad (m m' : Machine) w, m.perform settings pad w = .done m' →
      (∀ part, ¬ Word.Reaches w m part → part.Same m m') ∧
      ((∀ part, ¬ Word.Reaches w m part) → m' = { m with counter := m'.counter }) ∧
      (∀ target, Word.LeadsTo w pad m target ↔ target = m'.counter) ∧
      m'.random.stream = m.random.stream ∧
      (m.random.place < m'.random.place ↔ Word.family w = 0xC)) ∧
    (∀ (c d : Console) w, c.Moves (.word w) d →
      c.machine.perform c.settings c.pad w = .done d.machine ∧ d = c.withMachine d.machine) ∧
    ∀ c : Console, c.tick.console.pad = c.pad := by
  refine ⟨?_, ?_, pad_tick⟩
  · intro settings pad m m' w h
    obtain ⟨ho, rfl⟩ := Machine.perform_eq_done_iff.mp h
    have hsame : ∀ part, ¬ Word.Reaches w m part → part.Same m (m.after settings pad w) :=
      fun part => Machine.same_of_not_reaches
    refine ⟨hsame, ?_, fun target => Machine.leadsTo_iff ho, ?_⟩
    · intro hnone
      exact Part.eq_of_same fun part => hsame part (hnone part)
    · by_cases hw : Word.family w = 0xC
      · have hr : (m.after settings pad w).random =
            (m.random.byte settings.fullRandomRange).2 := by
          rw [Machine.after, Instruction.ofWord_eq_of_spells (.random hw)]
          rfl
        rw [hr]
        exact ⟨Source.stream_byte _ _, fun _ => hw, fun _ => Source.place_lt_byte _ _⟩
      · have hr : (m.after settings pad w).random = m.random := by
          refine hsame .random fun h => ?_
          cases h with
          | source hc => exact hw hc
        rw [hr]
        exact ⟨rfl, fun h => absurd h (Nat.lt_irrefl _), fun h => absurd h hw⟩
  · intro c d w h
    cases h with
    | word hf hp => exact ⟨hp, rfl⟩

/-- `3100` passes over the next word while `V1` is 0, and that is all it does. -/
theorem word_footprint_skip :
    let c := ofProgram [0x31, 0x00] 1
    let d := c.withMachine (c.machine.after c.settings c.pad 0x3100)
    c.Moves (.word 0x3100) d ∧ d.pad = c.pad ∧ d.machine = { c.machine with counter := 0x204 } := by
  intro c d
  have hm : c.machine.memory = Memory.zero.overwrite programStart [0x31, 0x00] := rfl
  have hf : c.machine.fetch = .ok 0x3100 :=
    Machine.fetch_of_image (k := 0) hm rfl (by decide) (by decide)
  have hmoves : c.Moves (.word 0x3100) d := .word hf (Machine.perform_eq_done_iff.mpr ⟨rfl, rfl⟩)
  obtain ⟨hp, hd⟩ := word_footprint.2.1 c d 0x3100 hmoves
  obtain ⟨-, hnone, hleads, -⟩ := word_footprint.1 _ _ _ _ _ hp
  have hskip : Word.Skips 0x3100 c.pad c.machine :=
    .equal (by decide) (Registers.get_zero _)
  have hcounter : 0x204 = d.machine.counter := (hleads _).mp (.skip hskip)
  refine ⟨hmoves, (congrArg Console.pad hd).trans rfl, ?_⟩
  rw [hcounter]
  refine hnone fun part h => ?_
  cases h <;> contradiction

end Console

end ChipEight
