import ChipEight.Proofs.Footprint

/-!
# Registers in memory

`Fx55` puts `V0` to `Vx` at the index, `Fx65` gets them from there, and neither moves the index. So
each undoes the other, wherever the index points, as long as what is carried out in between leaves
the index and the stored bytes as they are. `Fx33` puts the digits of a register where `F265` gets
them from.

* `overwrite_pointed`, `pointed_overwrite`: bytes written where they were read, and read where they
  were written
* `exists_storeRegisters`, `exists_loadRegisters`, `exists_storeDecimal`: what the three words do
* `Performs.same`: a part that no word of a sequence reaches stays as it is
* `load_undoes_store`: registers that are stored and loaded again
-/

namespace ChipEight

theorem Part.Same.refl (m : Machine) (part : Part) : part.Same m m := by
  cases part <;> rfl

theorem Part.Same.trans {m next last : Machine} {part : Part} (h : part.Same m next)
    (h' : part.Same next last) : part.Same m last := by
  cases part <;> exact Eq.trans h' h

/-- Whether a word leaves the index and the memory alone, on whatever machine it is carried out. -/
def Word.Spares (w : UInt16) : Prop := ∀ m, ¬ Reaches w m .index ∧ ∀ a, ¬ Reaches w m (.byte a)

/-! ## Registers as bytes -/

namespace Registers

theorem getElem_toList_take {r : Registers} {x z : Register}
    (h : z.val < (r.toList.take (x + 1)).length) : (r.toList.take (x + 1))[z.val] = r.get z := by
  simp [toList, get]

/-- The registers that bytes were written to hold these bytes. -/
theorem take_fill {r : Registers} {x : Register} {bytes : List UInt8} (h : bytes.length = x + 1) :
    (r.fill bytes).toList.take (x + 1) = bytes := by
  refine List.ext_getElem ((Instruction.length_stored _ x).trans h.symm) fun k hk hb => ?_
  have hx : x.val < 16 := x.isLt
  have hlt : k < 16 := by omega
  rw [getElem_toList_take (z := ⟨k, hlt⟩) hk, get_fill, List.getD_eq_getElem _ _ hb]

/-- Registers that were filled with those of others agree with these up to the last of them. -/
theorem get_fill_take (r s : Registers) (x z : Register) :
    (r.fill (s.toList.take (x + 1))).get z = if z ≤ x then s.get z else r.get z := by
  have hlen : (s.toList.take (x + 1)).length = x + 1 := Instruction.length_stored s x
  rw [get_fill]
  by_cases h : z ≤ x
  · have hz : z.val < (s.toList.take (x + 1)).length := by
      rw [hlen]
      exact Nat.lt_succ_of_le h
    rw [if_pos h, List.getD_eq_getElem _ _ hz, getElem_toList_take hz]
  · have hz : (s.toList.take (x + 1)).length ≤ z.val := by
      rw [hlen]
      exact Nat.lt_of_not_le h
    rw [if_neg h, List.getD_eq_default _ _ hz]

end Registers

namespace Machine

open Word

variable {settings : Settings} {pad : HexPad} {m m' : Machine} {w : UInt16}

/-! ## Bytes at the index -/

theorem length_pointed (m : Machine) (count : Nat) : (m.pointed count).length = count := by
  simp [pointed]

theorem pointed_congr {count : Nat} (hi : m'.index = m.index)
    (hb : ∀ k < count, m'.memory.byteAt (m.index.toNat + k) = m.memory.byteAt (m.index.toNat + k)) :
    m'.pointed count = m.pointed count := by
  unfold pointed
  rw [hi]
  exact List.map_congr_left fun k hk => hb k (List.mem_range.mp hk)

/-- Bytes that are written where they were read change nothing. -/
theorem overwrite_pointed (m : Machine) (count : Nat) :
    m.memory.overwrite m.index.toNat (m.pointed count) = m.memory := by
  refine Memory.ext_byteAt fun a ha => ?_
  by_cases h : m.index.toNat ≤ a ∧ a < m.index.toNat + (m.pointed count).length
  · rw [length_pointed] at h
    have hk : a - m.index.toNat < (m.pointed count).length := by
      rw [length_pointed]
      omega
    rw [Memory.byteAt_overwrite, if_pos ⟨h.1, ha⟩, List.getD_eq_getElem _ _ hk]
    simp only [pointed, List.getElem_map, List.getElem_range]
    rw [Nat.add_sub_cancel' h.1]
  · exact Memory.byteAt_overwrite_of_outside h

/-- Bytes that were written are there to be read. -/
theorem pointed_overwrite {bytes : List UInt8} {count : Nat} (hi : m'.index = m.index)
    (hm : m'.memory = m.memory.overwrite m.index.toNat bytes) (hlen : bytes.length = count)
    (hfit : m.index.toNat + count ≤ memorySize) : m'.pointed count = bytes := by
  subst hlen
  refine List.ext_getElem (length_pointed m' _) fun k _ hk => ?_
  simp only [pointed, List.getElem_map, List.getElem_range]
  rw [hi, hm, Memory.byteAt_overwrite_of_lt hfit hk]

/-! ## The words that store and load -/

theorem exists_storeRegisters (settings : Settings) (pad : HexPad) (hw : family w = 0xF)
    (hk : kk w = 0x55) (hfit : m.index.toNat + ((x w).val + 1) ≤ memorySize) :
    ∃ stored : Machine, m.perform settings pad w = .done stored ∧ stored.index = m.index ∧
      stored.memory = m.memory.overwrite m.index.toNat (m.registers.toList.take (x w + 1)) := by
  refine ⟨_, perform_eq_done_iff.mpr ⟨?_, rfl⟩, ?_⟩
  · rw [obstacle?, Instruction.ofWord_eq_of_spells (.storeRegisters hw hk)]
    exact if_pos hfit
  · rw [after, Instruction.ofWord_eq_of_spells (.storeRegisters hw hk)]
    exact ⟨rfl, rfl⟩

theorem exists_loadRegisters (settings : Settings) (pad : HexPad) (hw : family w = 0xF)
    (hk : kk w = 0x65) (hfit : m.index.toNat + ((x w).val + 1) ≤ memorySize) :
    ∃ loaded : Machine, m.perform settings pad w = .done loaded ∧
      loaded.registers = m.registers.fill (m.pointed (x w + 1)) ∧
      loaded.index = m.index ∧ loaded.memory = m.memory := by
  refine ⟨_, perform_eq_done_iff.mpr ⟨?_, rfl⟩, ?_⟩
  · rw [obstacle?, Instruction.ofWord_eq_of_spells (.loadRegisters hw hk)]
    exact if_pos hfit
  · rw [after, Instruction.ofWord_eq_of_spells (.loadRegisters hw hk)]
    -- moving past the word changes neither the index nor the bytes there
    have hpast : m.past.pointed (x w + 1) = m.pointed (x w + 1) := pointed_congr rfl fun _ _ => rfl
    refine ⟨congrArg m.registers.fill hpast, ?_, ?_⟩
    · show (Instruction.loadRegisters (x w)).indexAfter m.past = m.index
      rfl
    · show (Instruction.loadRegisters (x w)).memoryAfter m.past = m.memory
      rfl

theorem exists_storeDecimal (settings : Settings) (pad : HexPad) (hw : family w = 0xF)
    (hk : kk w = 0x33) (hfit : m.index.toNat + 3 ≤ memorySize) :
    ∃ stored : Machine, m.perform settings pad w = .done stored ∧ stored.index = m.index ∧
      stored.memory = m.memory.overwrite m.index.toNat (decimal (m.registers.get (x w))) := by
  refine ⟨_, perform_eq_done_iff.mpr ⟨?_, rfl⟩, ?_⟩
  · rw [obstacle?, Instruction.ofWord_eq_of_spells (.storeDecimal hw hk)]
    exact if_pos hfit
  · rw [after, Instruction.ofWord_eq_of_spells (.storeDecimal hw hk)]
    exact ⟨rfl, rfl⟩

/-! ## Sequences of words -/

/-- Words that are carried out one after the other, whichever keys are down at each of them. -/
inductive Performs (settings : Settings) : Machine → List UInt16 → Machine → Prop
  | nil (m : Machine) : Performs settings m [] m
  | cons {pad : HexPad} {m next last : Machine} {w : UInt16} {rest : List UInt16}
      (h : m.perform settings pad w = .done next) (hrest : Performs settings next rest last) :
      Performs settings m (w :: rest) last

variable {words : List UInt16}

/-- A part that no word of a sequence reaches stays as it is. -/
theorem Performs.same (part : Part) (h : Performs settings m words m')
    (hw : ∀ w ∈ words, ∀ m, ¬ Reaches w m part) : part.Same m m' := by
  induction h with
  | nil m => exact .refl m part
  | cons h _ ih =>
    obtain ⟨-, rfl⟩ := perform_eq_done_iff.mp h
    exact (same_of_not_reaches (hw _ List.mem_cons_self _)).trans
      (ih fun w hmem => hw w (List.mem_cons_of_mem _ hmem))

theorem Performs.spared (h : Performs settings m words m') (hw : ∀ w ∈ words, Spares w) :
    m'.index = m.index ∧ m'.memory = m.memory :=
  ⟨h.same .index fun w hmem m => (hw w hmem m).1,
    Memory.ext_byteAt fun a _ => h.same (.byte a) fun w hmem m => (hw w hmem m).2 a⟩

/-! ## Digits -/

/-- The digits of a byte are at most 9 and make up the byte. -/
theorem value_decimal {byte hundreds tens ones : UInt8}
    (h : decimal byte = [hundreds, tens, ones]) :
    hundreds ≤ 9 ∧ tens ≤ 9 ∧ ones ≤ 9 ∧
      100 * hundreds.toNat + 10 * tens.toNat + ones.toNat = byte.toNat := by
  simp only [decimal, List.cons.injEq, and_true] at h
  obtain ⟨rfl, rfl, rfl⟩ := h
  have hhundreds : (byte / 100).toNat = byte.toNat / 100 := UInt8.toNat_div byte 100
  have htens : (byte / 10 % 10).toNat = byte.toNat / 10 % 10 :=
    (UInt8.toNat_mod (byte / 10) 10).trans (congrArg (· % 10) (UInt8.toNat_div byte 10))
  have hones : (byte % 10).toNat = byte.toNat % 10 := UInt8.toNat_mod byte 10
  have hbyte := byte.toNat_lt
  simp only [UInt8.le_iff_toNat_le, hhundreds, htens, hones, show (9 : UInt8).toNat = 9 from rfl]
  omega

theorem decimal_of_fill {r s : Registers} {byte : UInt8} (h : s = r.fill (decimal byte)) :
    decimal byte = [s.get 0, s.get 1, s.get 2] := by
  subst h
  simp only [Registers.get_fill]
  rfl

/-! ## Round trips -/

/-- Registers that were stored come back when they are loaded from the same place, whatever became
of them in between, and no other register, byte or index changes. Registers that were loaded put
the same bytes back when they are stored. The digits of a register come back as its value. All of
this holds up to the end of memory, and none of the words can fail there. -/
theorem load_undoes_store (settings : Settings) (pad pad' : HexPad) (m : Machine) :
    (∀ store load, family store = 0xF → kk store = 0x55 → family load = 0xF → kk load = 0x65 →
      x load = x store → m.index.toNat + (x store).val + 1 ≤ 4096 →
      (∃ stored : Machine, m.perform settings pad store = .done stored ∧
        ∀ words ready, Performs settings stored words ready →
          ((∀ w ∈ words, Spares w) →
            ready.index = stored.index ∧ ready.memory = stored.memory) ∧
          (ready.index = stored.index →
            (∀ k ≤ (x store).val, ready.memory.byteAt (stored.index.toNat + k) =
              stored.memory.byteAt (stored.index.toNat + k)) →
            ∃ loaded : Machine, ready.perform settings pad' load = .done loaded ∧
              (∀ z, loaded.registers.get z =
                if z ≤ x store then m.registers.get z else ready.registers.get z) ∧
              loaded.index = ready.index ∧ loaded.memory = ready.memory)) ∧
      ∃ loaded stored : Machine, m.perform settings pad load = .done loaded ∧
        loaded.perform settings pad' store = .done stored ∧ stored.memory = m.memory) ∧
    ∀ digits, family digits = 0xF → kk digits = 0x33 → m.index.toNat + 3 ≤ 4096 →
      ∃ stored loaded : Machine, m.perform settings pad digits = .done stored ∧
        stored.perform settings pad' 0xF265 = .done loaded ∧
        loaded.registers.get 0 ≤ 9 ∧ loaded.registers.get 1 ≤ 9 ∧ loaded.registers.get 2 ≤ 9 ∧
        100 * (loaded.registers.get 0).toNat + 10 * (loaded.registers.get 1).toNat +
          (loaded.registers.get 2).toNat = (m.registers.get (x digits)).toNat ∧
        ∀ a, ¬ (m.index.toNat ≤ a ∧ a < m.index.toNat + 3) →
          loaded.memory.byteAt a = m.memory.byteAt a := by
  refine ⟨?_, ?_⟩
  · intro store load hs hsk hl hlk hx hfit
    have hload : m.index.toNat + ((x load).val + 1) ≤ memorySize := by
      rw [hx]
      exact hfit
    constructor
    · obtain ⟨stored, hperform, hindex, hmemory⟩ :=
        exists_storeRegisters settings pad hs hsk hfit
      refine ⟨stored, hperform, fun words ready hwords => ⟨hwords.spared, fun hi hb => ?_⟩⟩
      have hready : ready.index.toNat + ((x load).val + 1) ≤ memorySize := by
        rw [hi, hindex]
        exact hload
      obtain ⟨loaded, hloaded, hregisters, hkept⟩ :=
        exists_loadRegisters settings pad' hl hlk hready
      have hbytes : ready.pointed (x load + 1) = m.registers.toList.take (x store + 1) := by
        rw [hx, pointed_congr hi fun k hk => hb k (Nat.le_of_lt_succ hk)]
        exact pointed_overwrite hindex hmemory
          (Instruction.length_stored m.registers (x store)) hfit
      refine ⟨loaded, hloaded, fun z => ?_, hkept⟩
      rw [hregisters, hbytes, Registers.get_fill_take]
    · obtain ⟨loaded, hloaded, hregisters, hindex, hmemory⟩ :=
        exists_loadRegisters settings pad hl hlk hload
      have hstore : loaded.index.toNat + ((x store).val + 1) ≤ memorySize := by
        rw [hindex]
        exact hfit
      obtain ⟨stored, hstored, -, hwritten⟩ :=
        exists_storeRegisters settings pad' hs hsk hstore
      refine ⟨loaded, stored, hloaded, hstored, ?_⟩
      rw [hwritten, hregisters, hindex, hmemory, hx, Registers.take_fill (length_pointed m _),
        overwrite_pointed]
  · intro digits hd hdk hfit
    obtain ⟨stored, hstored, hindex, hmemory⟩ :=
      exists_storeDecimal settings pad hd hdk hfit
    have hthree : (x 0xF265).val + 1 = 3 := by decide
    have hstore : stored.index.toNat + ((x 0xF265).val + 1) ≤ memorySize := by
      rw [hindex, hthree]
      exact hfit
    obtain ⟨loaded, hloaded, hregisters, -, hkept⟩ :=
      exists_loadRegisters settings pad' (w := 0xF265)
        (by decide) (by decide) hstore
    have hbytes : stored.pointed 3 = decimal (m.registers.get (x digits)) :=
      pointed_overwrite hindex hmemory rfl hfit
    rw [hthree, hbytes] at hregisters
    obtain ⟨h0, h1, h2, hvalue⟩ := value_decimal (decimal_of_fill hregisters)
    refine ⟨stored, loaded, hstored, hloaded, h0, h1, h2, hvalue, fun a ha => ?_⟩
    rw [hkept, hmemory]
    exact Memory.byteAt_overwrite_of_outside ha

/-- `V0` to `V2` are stored in the last three bytes of memory, cleared, and loaded again. The digits
of `V0` fit there, too. -/
theorem load_undoes_store_at_end :
    let m : Machine := { Machine.initial (.ofSeed 0) with
      registers := Registers.zero.fill [156, 7, 9], index := 0xFFD }
    (∃ stored ready loaded : Machine, m.perform {} .released 0xF255 = .done stored ∧
      Performs {} stored [0x6000, 0x6100, 0x6200] ready ∧ ready.registers.get 0 = 0 ∧
      ready.perform {} .released 0xF265 = .done loaded ∧ loaded.registers.get 0 = 156 ∧
      loaded.registers.get 1 = 7 ∧ loaded.registers.get 2 = 9) ∧
    ∃ stored loaded : Machine, m.perform {} .released 0xF033 = .done stored ∧
      stored.perform {} .released 0xF265 = .done loaded ∧
      100 * (loaded.registers.get 0).toNat + 10 * (loaded.registers.get 1).toNat +
        (loaded.registers.get 2).toNat = 156 := by
  intro m
  obtain ⟨hround, hdigits⟩ := load_undoes_store {} .released .released m
  obtain ⟨⟨stored, hstored, hback⟩, -⟩ := hround 0xF255 0xF265 (by decide) (by decide) (by decide)
    (by decide) (by decide) (by decide)
  let clear (n : Machine) (w : UInt16) : Machine := n.after {} .released w
  let ready := clear (clear (clear stored 0x6000) 0x6100) 0x6200
  have hready : Performs {} stored [0x6000, 0x6100, 0x6200] ready :=
    .cons (perform_eq_done_iff.mpr ⟨rfl, rfl⟩) (.cons (perform_eq_done_iff.mpr ⟨rfl, rfl⟩)
      (.cons (perform_eq_done_iff.mpr ⟨rfl, rfl⟩) (.nil ready)))
  have hcleared : ready.registers = ((stored.registers.set 0 0).set 1 0).set 2 0 := rfl
  have hspares : ∀ w ∈ [0x6000, 0x6100, 0x6200], Spares w := by
    simp only [List.mem_cons, List.not_mem_nil, or_false]
    rintro w (rfl | rfl | rfl) n <;> constructor <;> intros <;> rintro ⟨⟩ <;> contradiction
  obtain ⟨hspared, hloads⟩ := hback _ ready hready
  obtain ⟨hindex, hmemory⟩ := hspared hspares
  obtain ⟨loaded, hloaded, hregisters, -⟩ := hloads hindex fun k _ => by rw [hmemory]
  obtain ⟨stored', loaded', hstored', hloaded', -, -, -, hvalue, -⟩ :=
    hdigits 0xF033 (by decide) (by decide) (by decide)
  refine ⟨⟨stored, ready, loaded, hstored, hready, ?_, hloaded, ?_, ?_, ?_⟩,
    stored', loaded', hstored', hloaded', hvalue⟩
  · rw [hcleared]
    simp [Registers.get_set]
  · exact hregisters 0
  · exact hregisters 1
  · exact hregisters 2

end Machine

end ChipEight
