import ChipEight.Proofs.Decoding
import ChipEight.Proofs.Effect

/-!
# Steps and batches

A step fetches a word, moves the counter past it and carries it out. It has three ends: the fetch
fails and the machine stays as it is, the word meets an obstacle and only the counter has moved,
or the word has its effect.

* `fetch_eq_error_iff`: which fetches fail
* `step_eq_done_iff`, `step_eq_halted_iff`: the three ends of a step
* `batch_halted`: a batch that halts is a batch that does not, and one more step
-/

namespace ChipEight.Machine

variable {settings : Settings} {pad : HexPad} {m m' : Machine} {word : UInt16} {cause : Fault}

/-- The machine whose counter has moved past a word. -/
def past (m : Machine) : Machine := { m with counter := m.counter + 2 }

/-- The machine after a word that meets no obstacle. -/
def after (settings : Settings) (pad : HexPad) (m : Machine) (word : UInt16) : Machine :=
  (Instruction.ofWord word).effect settings pad m.past

/-- What keeps a word from being carried out. -/
def obstacle? (settings : Settings) (m : Machine) (word : UInt16) : Option Fault :=
  (Instruction.ofWord word).obstacle? settings m

/-! ## Fetching -/

theorem fetch_eq_ok (h : m.counter.toNat ≤ 0x0FFE) :
    m.fetch =
      .ok (Word.join (m.memory.byteAt m.counter.toNat)
        (m.memory.byteAt (m.counter.toNat + 1))) := by
  refine if_pos ?_
  show m.counter.toNat + 2 ≤ 4096
  omega

theorem fetch_eq_error (h : 0x0FFE < m.counter.toNat) :
    m.fetch = .error (.outsideMemory (max m.counter.toNat 0x1000)) := by
  refine if_neg ?_
  show ¬ m.counter.toNat + 2 ≤ 4096
  omega

theorem counter_le_of_fetch (h : m.fetch = .ok word) : m.counter.toNat ≤ 0x0FFE := by
  refine Nat.le_of_not_lt fun hlt => ?_
  rw [fetch_eq_error hlt] at h
  cases h

/-- A fetch fails where one of the two bytes of the word does not exist. -/
theorem fetch_eq_error_iff :
    m.fetch = .error cause ↔
      0x0FFE < m.counter.toNat ∧ cause = .outsideMemory (max m.counter.toNat 0x1000) := by
  constructor
  · intro h
    by_cases hlt : 0x0FFE < m.counter.toNat
    · rw [fetch_eq_error hlt] at h
      cases h
      exact ⟨hlt, rfl⟩
    · rw [fetch_eq_ok (Nat.le_of_not_lt hlt)] at h
      cases h
  · rintro ⟨hlt, rfl⟩
    exact fetch_eq_error hlt

/-- The words of an image are fetched from where it was copied to. -/
theorem fetch_of_image {m : Machine} {memory : Memory} {image : List UInt8} {k : Nat}
    (hm : m.memory = memory.overwrite programStart image)
    (hk : m.counter.toNat = programStart + k) (hi : k + 1 < image.length)
    (hs : programStart + k + 1 < memorySize) :
    m.fetch = .ok (Word.join (image.getD k 0) (image.getD (k + 1) 0)) := by
  have hle : m.counter.toNat ≤ 0x0FFE := by
    have : programStart + k + 1 < 4096 := hs
    omega
  have hbyte : ∀ j, j < image.length → programStart + j < memorySize →
      m.memory.byteAt (programStart + j) = image.getD j 0 := by
    intro j hj hfit
    rw [hm, Memory.byteAt_overwrite, if_pos ⟨Nat.le_add_right _ _, hfit⟩, Nat.add_sub_cancel_left]
    simp [hj]
  rw [fetch_eq_ok hle, hk, hbyte k (by omega) (by omega), Nat.add_assoc, hbyte (k + 1) hi hs]

/-! ## The counter -/

theorem toNat_counter_past (h : m.counter.toNat < 0xFFFE) :
    m.past.counter.toNat = m.counter.toNat + 2 := by
  show (m.counter + 2).toNat = _
  rw [UInt16.toNat_add, show (2 : UInt16).toNat = 2 from rfl]
  omega

/-- A word that was fetched lies in memory, so the counter does not wrap when it moves past it. -/
theorem toNat_counter_past_of_fetch (h : m.fetch = .ok word) :
    m.past.counter.toNat = m.counter.toNat + 2 := by
  have := counter_le_of_fetch h
  exact toNat_counter_past (by omega)

/-! ## Carrying out a word -/

/-- Obstacles do not depend on the counter. -/
theorem obstacle?_past (i : Instruction) :
    i.obstacle? settings m.past = i.obstacle? settings m := by
  cases i <;> rfl

theorem perform_eq_done_iff :
    m.perform settings pad word = .done m' ↔
      m.obstacle? settings word = none ∧ m' = m.after settings pad word := by
  rw [obstacle?, ← obstacle?_past]
  exact Instruction.execute_eq_done_iff

theorem perform_eq_halted_iff :
    m.perform settings pad word = .halted cause m' ↔
      m.obstacle? settings word = some cause ∧ m' = m.past := by
  rw [obstacle?, ← obstacle?_past]
  exact Instruction.execute_eq_halted_iff

theorem memory_after {i : Instruction} (h : Instruction.ofWord word = i) :
    (m.after settings pad word).memory = i.memoryAfter m.past := by
  rw [← h]
  rfl

/-! ## Steps -/

theorem step_eq_done_iff :
    m.step settings pad = .done m' ↔
      ∃ word, m.fetch = .ok word ∧ m.obstacle? settings word = none ∧
        m' = m.after settings pad word := by
  cases hf : m.fetch with
  | error cause => simp [step_of_fetch_error hf]
  | ok word => simp [step_of_fetch hf, perform_eq_done_iff]

theorem step_eq_halted_iff :
    m.step settings pad = .halted cause m' ↔
      (m.fetch = .error cause ∧ m' = m) ∨
        ∃ word, m.fetch = .ok word ∧ m.obstacle? settings word = some cause ∧ m' = m.past := by
  cases hf : m.fetch with
  | error cause' => simp [step_of_fetch_error hf, eq_comm]
  | ok word => simp [step_of_fetch hf, perform_eq_halted_iff]

/-- A step that halts moves the counter at most. -/
theorem eq_of_step_halted (h : m.step settings pad = .halted cause m') :
    m' = { m with counter := m'.counter } := by
  rcases step_eq_halted_iff.mp h with ⟨-, rfl⟩ | ⟨word, -, -, rfl⟩ <;> rfl

/-! ## Batches -/

theorem batch_of_fetch {n : Nat} (hf : m.fetch = .ok word)
    (ho : m.obstacle? settings word = none) :
    m.batch settings pad (n + 1) = (m.after settings pad word).batch settings pad n := by
  rw [batch, step_eq_done_iff.mpr ⟨word, hf, ho, rfl⟩]

theorem batch_of_obstacle {n : Nat} (hf : m.fetch = .ok word)
    (ho : m.obstacle? settings word = some cause) :
    m.batch settings pad (n + 1) = .halted cause m.past := by
  rw [batch, step_eq_halted_iff.mpr (.inr ⟨word, hf, ho, rfl⟩)]

/-- A batch that halts was cut short by the step after the last one that was carried out. -/
theorem batch_halted {n : Nat} (h : m.batch settings pad n = .halted cause m') :
    ∃ k, k < n ∧ ∃ next, m.batch settings pad k = .done next ∧
      next.step settings pad = .halted cause m' := by
  -- on the number of steps left, from whatever machine they are taken
  induction n generalizing m with
  | zero => cases h
  | succ n ih =>
    rw [batch] at h
    cases hs : m.step settings pad with
    | halted cause' next =>
      rw [hs] at h
      cases h
      exact ⟨0, Nat.succ_pos n, m, rfl, hs⟩
    | done next =>
      rw [hs] at h
      -- one step more was carried out than in the rest of the batch
      obtain ⟨k, hk, last, hb, hl⟩ := ih h
      refine ⟨k + 1, Nat.succ_lt_succ hk, last, ?_, hl⟩
      rw [batch, hs]
      exact hb

end ChipEight.Machine
