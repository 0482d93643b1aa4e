import Mathlib.Data.Nat.Find
import Mathlib.Order.Bounds.Basic
import ChipEight.Proofs.Halting

/-!
# Faults of accesses

The counter and the index may point past the end of memory. That is no fault as long as nothing is
accessed there. `Accesses` lists the addresses that a step has to access: the two bytes of its word,
and the bytes from the index on that the word spans.

* `isLeast_range_iff`: what is missing of a range of addresses
* `reports_iff`: a step reports the first missing address, with one exception
* `reports_missing`: the exception is a sprite of no rows that lies past the end of memory
-/

namespace ChipEight

open Word in
/-- How many bytes from the index on a word accesses. -/
def Word.span (w : UInt16) : Nat :=
  if (family w).val = 0xD then (n w).val
  else if (family w).val = 0xF ∧ kk w = 0x33 then 3
  else if (family w).val = 0xF ∧ (kk w = 0x55 ∨ kk w = 0x65) then (x w).val + 1
  else 0

namespace Machine

open Word

variable {settings : Settings} {pad : HexPad} {m m' : Machine} {w : UInt16} {cause : Fault}
  {a : Nat}

/-- The addresses that a step has to access. -/
inductive Accesses (m : Machine) : Nat → Prop
  | counter {k : Nat} (hk : k < 2) : Accesses m (m.counter.toNat + k)
  | index {w : UInt16} {k : Nat} (hf : m.fetch = .ok w) (hk : k < span w) :
      Accesses m (m.index.toNat + k)

/-- An address that a step has to access and that does not exist. -/
def Missing (m : Machine) (a : Nat) : Prop := m.Accesses a ∧ memorySize ≤ a

/-- Whether a step is halted for an access to an address. -/
def Reports (settings : Settings) (pad : HexPad) (m : Machine) (a : Nat) : Prop :=
  ∃ m', m.step settings pad = .halted (.outsideMemory a) m'

/-- Whether the next word draws a sprite of no rows that lies past the end of memory. -/
def DrawsBeyond (m : Machine) : Prop :=
  ∃ w, m.fetch = .ok w ∧ (family w).val = 0xD ∧ (n w).val = 0 ∧ memorySize < m.index.toNat

theorem span_of_draw (hw : family w = 0xD) : span w = n w := if_pos (congrArg Fin.val hw)

/-! ## Missing addresses -/

/-- The first missing address of a range. An empty range misses none, wherever it begins. -/
theorem isLeast_range_iff {start count : Nat} (hcount : 0 < count) :
    IsLeast {b | (∃ k < count, b = start + k) ∧ memorySize ≤ b} a ↔
      memorySize < start + count ∧ a = max start memorySize := by
  constructor
  · rintro ⟨⟨⟨k, hk, rfl⟩, hle⟩, hleast⟩
    have hlt : memorySize < start + count := by omega
    refine ⟨hlt, Nat.le_antisymm (hleast ⟨⟨max start memorySize - start, ?_, ?_⟩, ?_⟩) ?_⟩ <;> omega
  · rintro ⟨hlt, rfl⟩
    refine ⟨⟨⟨max start memorySize - start, ?_, ?_⟩, ?_⟩, ?_⟩
    · omega
    · omega
    · omega
    · rintro b ⟨⟨k, -, rfl⟩, hle⟩
      omega

/-- Without a word, only the two bytes at the counter are accessed. -/
theorem missing_of_fetch_error (h : m.fetch = .error cause) :
    m.Missing a ↔ (∃ k < 2, a = m.counter.toNat + k) ∧ memorySize ≤ a := by
  refine and_congr_left fun _ => ⟨?_, ?_⟩
  · intro ha
    cases ha with
    | counter hk => exact ⟨_, hk, rfl⟩
    | index hf =>
      rw [h] at hf
      cases hf
  · rintro ⟨k, hk, rfl⟩
    exact .counter hk

/-- A word that was fetched exists, so nothing is missing but what it accesses. -/
theorem missing_of_fetch (h : m.fetch = .ok w) :
    m.Missing a ↔ (∃ k < span w, a = m.index.toNat + k) ∧ memorySize ≤ a := by
  refine and_congr_left fun hle => ⟨?_, ?_⟩
  · intro ha
    cases ha with
    | counter hk =>
      have hcounter := counter_le_of_fetch h
      have hsize : memorySize = 4096 := rfl
      omega
    | index hf hk =>
      rw [h] at hf
      cases hf
      exact ⟨_, hk, rfl⟩
  · rintro ⟨k, hk, rfl⟩
    exact .index h hk

/-! ## Blocked accesses -/

/-- A word is blocked for an access if it spans bytes that do not exist. A sprite of no rows is
blocked by its place alone. -/
theorem blocked_outside_iff :
    m.Blocked settings w (.outsideMemory a) ↔
      (family w = 0xD ∨ 0 < span w) ∧ memorySize < m.index.toNat + span w ∧
        a = max m.index.toNat memorySize := by
  constructor
  · intro h
    cases h with
    | draw hw hlt =>
      rw [span_of_draw hw]
      exact ⟨.inl hw, hlt, rfl⟩
    | storeDecimal hw hk hlt =>
      have hf : (family w).val = 0xF := congrArg Fin.val hw
      have hs : span w = 3 := by simp [span, hf, hk]
      rw [hs]
      exact ⟨.inr (by decide), hlt, rfl⟩
    | storeRegisters hw hk hlt | loadRegisters hw hk hlt =>
      have hf : (family w).val = 0xF := congrArg Fin.val hw
      have hs : span w = x w + 1 := by simp [span, hf, hk]
      rw [hs]
      exact ⟨.inr (Nat.succ_pos _), hlt, rfl⟩
  · rintro ⟨hform, hlt, rfl⟩
    unfold span at hform hlt
    by_cases hd : (family w).val = 0xD
    · rw [if_pos hd] at hlt
      exact .draw (Fin.ext hd) hlt
    · have hd' : family w ≠ 0xD := fun h => hd (congrArg Fin.val h)
      rw [if_neg hd] at hform hlt
      by_cases hdecimal : (family w).val = 0xF ∧ kk w = 0x33
      · rw [if_pos hdecimal] at hlt
        exact .storeDecimal (Fin.ext hdecimal.1) hdecimal.2 hlt
      · rw [if_neg hdecimal] at hform hlt
        by_cases hregisters : (family w).val = 0xF ∧ (kk w = 0x55 ∨ kk w = 0x65)
        · rw [if_pos hregisters] at hlt
          rcases hregisters with ⟨hw, hk | hk⟩
          · exact .storeRegisters (Fin.ext hw) hk hlt
          · exact .loadRegisters (Fin.ext hw) hk hlt
        · -- no other word accesses anything
          rw [if_neg hregisters] at hform
          exact absurd hform (by simp [hd'])

/-! ## Steps -/

theorem reports_of_fetch_error (h : m.fetch = .error cause) :
    m.Reports settings pad a ↔ IsLeast {b | m.Missing b} a := by
  obtain ⟨hlt, rfl⟩ := fetch_eq_error_iff.mp h
  have hmissing : {b | m.Missing b} =
      {b | (∃ k < 2, b = m.counter.toNat + k) ∧ memorySize ≤ b} :=
    Set.ext fun b => missing_of_fetch_error h
  have hsize : memorySize = 0x1000 := rfl
  rw [hmissing, isLeast_range_iff (by decide), Reports, step_of_fetch_error h]
  simp
  omega

theorem reports_of_fetch (h : m.fetch = .ok w) :
    m.Reports settings pad a ↔
      (family w = 0xD ∨ 0 < span w) ∧ memorySize < m.index.toNat + span w ∧
        a = max m.index.toNat memorySize := by
  have hblocked : m.Blocked settings w (.outsideMemory a) ↔ _ := blocked_outside_iff
  rw [Reports, step_of_fetch h, ← hblocked]
  simp only [perform_eq_halted_iff_blocked, exists_and_left, exists_eq, and_true]

/-- A step reports the smallest missing address. Besides, it reports the index where it has to draw
a sprite of no rows past the end of memory. -/
theorem reports_iff :
    m.Reports settings pad a ↔
      IsLeast {b | m.Missing b} a ∨ m.DrawsBeyond ∧ a = m.index.toNat := by
  cases hf : m.fetch with
  | error cause =>
    rw [reports_of_fetch_error hf]
    refine ⟨.inl, fun h => h.resolve_right ?_⟩
    rintro ⟨⟨w, hw, -⟩, -⟩
    rw [hf] at hw
    cases hw
  | ok w =>
    have hmissing : {b | m.Missing b} =
        {b | (∃ k < span w, b = m.index.toNat + k) ∧ memorySize ≤ b} :=
      Set.ext fun b => missing_of_fetch hf
    have hbeyond : m.DrawsBeyond ↔ family w = 0xD ∧ span w = 0 ∧ memorySize < m.index.toNat := by
      have hval : (family w).val = 0xD ↔ family w = 0xD := ⟨fun h => Fin.ext h, congrArg Fin.val⟩
      simp only [DrawsBeyond, hf, Except.ok.injEq, exists_eq_left', hval]
      exact and_congr_right fun hd => by rw [span_of_draw hd]
    rw [reports_of_fetch hf, hmissing, hbeyond]
    rcases Nat.eq_zero_or_pos (span w) with hs | hs
    · -- nothing is missing of an empty range
      have hnone : ¬ IsLeast {b | (∃ k < span w, b = m.index.toNat + k) ∧ memorySize ≤ b} a := by
        rintro ⟨⟨⟨k, hk, -⟩, -⟩, -⟩
        omega
      rw [or_iff_right hnone, hs]
      constructor
      · rintro ⟨hd, hlt, rfl⟩
        exact ⟨⟨hd.resolve_right (Nat.lt_irrefl 0), rfl, hlt⟩, by omega⟩
      · rintro ⟨⟨hd, -, hlt⟩, rfl⟩
        exact ⟨.inl hd, hlt, by omega⟩
    · rw [isLeast_range_iff hs, and_iff_right (Or.inr hs), or_iff_left]
      rintro ⟨⟨-, hzero, -⟩, -⟩
      omega

theorem not_missing_of_drawsBeyond (h : m.DrawsBeyond) (a : Nat) : ¬ m.Missing a := by
  obtain ⟨w, hf, hd, hs, -⟩ := h
  rw [missing_of_fetch hf, span_of_draw (Fin.ext hd), hs]
  rintro ⟨⟨k, hk, -⟩, -⟩
  omega

/-- Where nothing is missing, what halts a step is the call stack, or a sprite of no rows past the
end of memory. -/
theorem cause_of_not_missing (hmissing : ∀ a, ¬ m.Missing a) (hbeyond : ¬ m.DrawsBeyond)
    (h : m.step settings pad = .halted cause m') :
    cause = .emptyCallStack ∨ ∃ limit, cause = .callDepth limit := by
  have hreports : ∀ a, cause ≠ .outsideMemory a := by
    rintro a rfl
    rcases reports_iff.mp ⟨m', h⟩ with hleast | ⟨hb, -⟩
    · exact hmissing a hleast.1
    · exact hbeyond hb
  cases stopped_of_step h with
  | fetch => exact absurd rfl (hreports _)
  | word hf hb =>
    cases hb with
    | ret => exact .inl rfl
    | call => exact .inr ⟨_, rfl⟩
    | draw | storeDecimal | storeRegisters | loadRegisters => exact absurd rfl (hreports _)

/-- A step is halted for an access exactly if an address that it has to access does not exist, and
the smallest such address is reported, unless it has to draw a sprite of no rows past the end of
memory: then nothing is missing, and the step is halted for an access to the index. Neither the
index nor the counter halts a step in any other way. -/
theorem reports_missing (settings : Settings) (pad : HexPad) (m : Machine) :
    ((((∃ a, m.Reports settings pad a) ↔ ∃ a, m.Missing a) ∧
        ∀ a, m.Reports settings pad a → IsLeast {b | m.Missing b} a) ↔ ¬ m.DrawsBeyond) ∧
    (m.DrawsBeyond → (∀ a, ¬ m.Missing a) ∧
      ∀ a, m.Reports settings pad a ↔ a = m.index.toNat) ∧
    ((∀ a, ¬ m.Missing a) → ¬ m.DrawsBeyond → ∀ cause m', m.step settings pad = .halted cause m' →
      cause = .emptyCallStack ∨ ∃ limit, cause = .callDepth limit) := by
  refine ⟨⟨?_, ?_⟩, ?_, ?_⟩
  · rintro ⟨hiff, -⟩ hbeyond
    obtain ⟨a, ha⟩ := hiff.mp ⟨_, reports_iff.mpr (.inr ⟨hbeyond, rfl⟩)⟩
    exact not_missing_of_drawsBeyond hbeyond a ha
  · intro hbeyond
    have hreports : ∀ a, m.Reports settings pad a ↔ IsLeast {b | m.Missing b} a :=
      fun a => reports_iff.trans (or_iff_left fun h => hbeyond h.1)
    refine ⟨⟨?_, ?_⟩, fun a ha => (hreports a).mp ha⟩
    · rintro ⟨a, ha⟩
      exact ⟨a, ((hreports a).mp ha).1⟩
    · intro hmissing
      classical
      exact ⟨Nat.find hmissing, (hreports _).mpr
        ⟨Nat.find_spec hmissing, fun b hb => Nat.find_min' hmissing hb⟩⟩
  · intro hbeyond
    have hnone := not_missing_of_drawsBeyond hbeyond
    refine ⟨hnone, fun a => reports_iff.trans ?_⟩
    rw [or_iff_right fun h => hnone a h.1, and_iff_right hbeyond]
  · intro hmissing hbeyond cause m' h
    exact cause_of_not_missing hmissing hbeyond h

/-- A machine that is to draw a sprite of no rows, with its index past the end of memory. -/
def beyond : Machine := { (Console.ofProgram [0xD0, 0x00] 1).machine with index := 0x1001 }

/-- A sprite of no rows is refused past the end of memory, though nothing of it is missing. -/
theorem beyond_reports :
    beyond.Reports {} .released 0x1001 ∧
      ¬ ((∃ a, beyond.Reports {} .released a) ↔ ∃ a, beyond.Missing a) := by
  have hm : beyond.memory = Memory.zero.overwrite programStart [0xD0, 0x00] := rfl
  have hf : beyond.fetch = .ok 0xD000 := fetch_of_image (k := 0) hm rfl (by decide) (by decide)
  have hbeyond : beyond.DrawsBeyond := ⟨0xD000, hf, by decide, by decide, by decide⟩
  have hreports : beyond.Reports {} .released 0x1001 := reports_iff.mpr (.inr ⟨hbeyond, rfl⟩)
  refine ⟨hreports, fun h => ?_⟩
  obtain ⟨a, ha⟩ := h.mp ⟨_, hreports⟩
  exact not_missing_of_drawsBeyond hbeyond a ha

end Machine

end ChipEight
