import ChipEight.Proofs.History

/-!
# Where machines halt and what they leave behind

A step halts because its word cannot be fetched or because its word is blocked. `Machine.Blocked`
lists the forms of words that can be, each with its condition and its fault.

* `obstacle?_eq_some_iff`: the list is complete, and every line of it applies
* `halts_exactly`: which steps halt and with which fault, and so which faults a console can keep
* `halts_in_place`: what halts leaves everything before it as it was
-/

namespace ChipEight

/-- The faults that steps meet. -/
def Fault.Arises (settings : Settings) : Fault → Prop
  | .emptyCallStack => True
  | .callDepth limit => settings.stackLimit = some limit
  | .outsideMemory address => 0x1000 ≤ address ∧ address ≤ 0xFFFF
  | .unknownWord _ | .imageTooLarge _ _ | .imageUnreadable _ => False

namespace Machine

open Word

/-- What blocks a word. -/
inductive Blocked (settings : Settings) (m : Machine) (w : UInt16) : Fault → Prop
  | ret (hw : w = 0x00EE) (h : m.calls = []) : Blocked settings m w .emptyCallStack
  | call {limit : Nat} (hw : family w = 0x2) (hs : settings.stackLimit = some limit)
      (h : limit ≤ m.calls.length) : Blocked settings m w (.callDepth limit)
  | draw (hw : family w = 0xD) (h : 0x1000 < m.index.toNat + n w) :
      Blocked settings m w (.outsideMemory (max m.index.toNat 0x1000))
  | storeDecimal (hw : family w = 0xF) (hk : kk w = 0x33) (h : 0x1000 < m.index.toNat + 3) :
      Blocked settings m w (.outsideMemory (max m.index.toNat 0x1000))
  | storeRegisters (hw : family w = 0xF) (hk : kk w = 0x55) (h : 0x1000 < m.index.toNat + x w + 1) :
      Blocked settings m w (.outsideMemory (max m.index.toNat 0x1000))
  | loadRegisters (hw : family w = 0xF) (hk : kk w = 0x65) (h : 0x1000 < m.index.toNat + x w + 1) :
      Blocked settings m w (.outsideMemory (max m.index.toNat 0x1000))

/-- What stops a machine from taking a step. -/
inductive Stopped (settings : Settings) (m : Machine) : Fault → Prop
  | fetch (h : 0x0FFE < m.counter.toNat) :
      Stopped settings m (.outsideMemory (max m.counter.toNat 0x1000))
  | word {word : UInt16} {cause : Fault} (hf : m.fetch = .ok word)
      (h : m.Blocked settings word cause) : Stopped settings m cause

variable {settings : Settings} {pad : HexPad} {m m' : Machine} {w : UInt16} {cause : Fault}

/-! ## Blocked words -/

theorem reach?_eq_some_iff {count : Nat} :
    m.reach? count = some cause ↔
      0x1000 < m.index.toNat + count ∧ cause = .outsideMemory (max m.index.toNat 0x1000) := by
  unfold reach?
  by_cases h : m.index.toNat + count ≤ memorySize
  · rw [if_pos h]
    constructor
    · intro hc
      cases hc
    · rintro ⟨hlt, -⟩
      exact absurd h (Nat.not_le.mpr hlt)
  · rw [if_neg h]
    constructor
    · intro hc
      cases hc
      exact ⟨Nat.lt_of_not_le h, rfl⟩
    · rintro ⟨-, rfl⟩
      rfl

/-- Every obstacle is on the list of what blocks words. -/
theorem blocked_of_obstacle? (h : m.obstacle? settings w = some cause) :
    m.Blocked settings w cause := by
  have hs := Instruction.spells_ofWord w
  unfold obstacle? at h
  -- from here on the word counts only through the line of the table that it is on
  generalize Instruction.ofWord w = i at h hs
  cases hs with
  | ret hw =>
    simp only [Instruction.obstacle?] at h
    split at h
    · next hc =>
      cases h
      exact .ret hw hc
    · cases h
  | call hw =>
    simp only [Instruction.obstacle?] at h
    split at h
    · cases h
    · next limit hs =>
      split at h
      · next hle =>
        cases h
        exact .call hw hs hle
      · cases h
  | draw hw =>
    obtain ⟨hlt, rfl⟩ := reach?_eq_some_iff.mp h
    exact .draw hw hlt
  | storeDecimal hw hk =>
    obtain ⟨hlt, rfl⟩ := reach?_eq_some_iff.mp h
    exact .storeDecimal hw hk hlt
  | storeRegisters hw hk =>
    obtain ⟨hlt, rfl⟩ := reach?_eq_some_iff.mp h
    exact .storeRegisters hw hk hlt
  | loadRegisters hw hk =>
    obtain ⟨hlt, rfl⟩ := reach?_eq_some_iff.mp h
    exact .loadRegisters hw hk hlt
  | _ =>
    -- no other instruction has an obstacle
    cases h

theorem Blocked.obstacle?_eq (h : m.Blocked settings w cause) :
    m.obstacle? settings w = some cause := by
  unfold obstacle?
  cases h with
  | ret hw hc =>
    rw [Instruction.ofWord_eq_of_spells (.ret hw)]
    exact if_pos hc
  | call hw hs hle =>
    rw [Instruction.ofWord_eq_of_spells (.call hw)]
    simp only [Instruction.obstacle?, hs]
    exact if_pos hle
  | draw hw hlt =>
    rw [Instruction.ofWord_eq_of_spells (.draw hw)]
    exact reach?_eq_some_iff.mpr ⟨hlt, rfl⟩
  | storeDecimal hw hk hlt =>
    rw [Instruction.ofWord_eq_of_spells (.storeDecimal hw hk)]
    exact reach?_eq_some_iff.mpr ⟨hlt, rfl⟩
  | storeRegisters hw hk hlt =>
    rw [Instruction.ofWord_eq_of_spells (.storeRegisters hw hk)]
    exact reach?_eq_some_iff.mpr ⟨hlt, rfl⟩
  | loadRegisters hw hk hlt =>
    rw [Instruction.ofWord_eq_of_spells (.loadRegisters hw hk)]
    exact reach?_eq_some_iff.mpr ⟨hlt, rfl⟩

theorem obstacle?_eq_some_iff :
    m.obstacle? settings w = some cause ↔ m.Blocked settings w cause :=
  ⟨blocked_of_obstacle?, Blocked.obstacle?_eq⟩

theorem perform_eq_halted_iff_blocked :
    m.perform settings pad w = .halted cause m' ↔ m.Blocked settings w cause ∧ m' = m.past := by
  rw [perform_eq_halted_iff, obstacle?_eq_some_iff]

/-! ## Stopped machines -/

theorem stopped_of_step (h : m.step settings pad = .halted cause m') :
    m.Stopped settings cause := by
  rcases step_eq_halted_iff.mp h with ⟨hf, -⟩ | ⟨w, hf, ho, -⟩
  · obtain ⟨hlt, rfl⟩ := fetch_eq_error_iff.mp hf
    exact .fetch hlt
  · exact .word hf (obstacle?_eq_some_iff.mp ho)

theorem step_eq_halted_iff_stopped :
    (∃ m', m.step settings pad = .halted cause m') ↔ m.Stopped settings cause := by
  constructor
  · rintro ⟨m', h⟩
    exact stopped_of_step h
  · intro h
    cases h with
    | fetch hlt => exact ⟨m, step_eq_halted_iff.mpr (.inl ⟨fetch_eq_error hlt, rfl⟩)⟩
    | word hf hb =>
      exact ⟨m.past, step_eq_halted_iff.mpr (.inr ⟨_, hf, hb.obstacle?_eq, rfl⟩)⟩

theorem step_eq_done_iff_not_stopped :
    (∃ m', m.step settings pad = .done m') ↔ ∀ cause, ¬ m.Stopped settings cause := by
  constructor
  · rintro ⟨m', h⟩ cause hs
    -- a step has one outcome
    obtain ⟨_, hh⟩ : ∃ m', m.step settings pad = .halted cause m' :=
      step_eq_halted_iff_stopped.mpr hs
    rw [h] at hh
    cases hh
  · intro h
    cases hs : m.step settings pad with
    | done m' => exact ⟨m', rfl⟩
    | halted cause m' => exact absurd (stopped_of_step hs) (h cause)

/-! ## The faults that are kept -/

theorem arises_outside (a : UInt16) :
    (Fault.outsideMemory (max a.toNat 0x1000)).Arises settings := by
  have hlt : a.toNat < 0x10000 := a.toNat_lt
  constructor <;> omega

theorem Stopped.arises (h : m.Stopped settings cause) : cause.Arises settings := by
  cases h with
  | fetch => exact arises_outside m.counter
  | word _ hb =>
    cases hb with
    | ret => trivial
    | call _ hs => exact hs
    | draw | storeDecimal | storeRegisters | loadRegisters => exact arises_outside m.index

end Machine

namespace Console

/-- A change keeps no fault but those that steps meet. -/
theorem Moves.arises {c d : Console} {change : Change} (hm : c.Moves change d)
    (hc : ∀ cause, c.fault = some cause → cause.Arises c.settings) :
    ∀ cause, d.fault = some cause → cause.Arises d.settings := by
  intro cause hd
  cases hm with
  | word => exact hc cause hd
  | halt hs =>
    cases hd
    exact (Machine.stopped_of_step hs).arises
  | timers => exact hc cause hd
  | host he =>
    rw [fault_handle he] at hd
    rw [settings_handle]
    exact hc cause hd

theorem arises_of_run (settings : Settings) (random : Source) (events : List Event)
    (cause : Fault) (h : ((start settings random).run events).fault = some cause) :
    cause.Arises settings := by
  have hrun := forall_states
    (P := fun d => ∀ cause, d.fault = some cause → cause.Arises d.settings)
    (c := start settings random) nofun (fun hc hm => hm.arises hc) events _
    (run_mem_states (start settings random) events) cause h
  rw [settings_run] at hrun
  exact hrun

/-- Fetching, carrying out a word and taking a step fail in the listed cases and in no others. So
a fault that a console keeps is one that steps meet: no word is unknown, and what is wrong with an
image is reported and not kept. -/
theorem halts_exactly (settings : Settings) :
    (∀ (m : Machine) cause, m.fetch = .error cause ↔
      0x0FFE < m.counter.toNat ∧ cause = .outsideMemory (max m.counter.toNat 0x1000)) ∧
    (∀ pad (m m' : Machine) w cause, m.perform settings pad w = .halted cause m' ↔
      m.Blocked settings w cause ∧ m' = m.past) ∧
    (∀ pad (m : Machine) cause, (∃ m', m.step settings pad = .halted cause m') ↔
      m.Stopped settings cause) ∧
    (∀ pad (m : Machine), (∃ m', m.step settings pad = .done m') ↔
      ∀ cause, ¬ m.Stopped settings cause) ∧
    ∀ random events cause, ((start settings random).run events).fault = some cause →
      cause.Arises settings := by
  refine ⟨?_, ?_, ?_, ?_, ?_⟩
  · intro m cause
    exact Machine.fetch_eq_error_iff
  · intro pad m m' w cause
    exact Machine.perform_eq_halted_iff_blocked
  · intro pad m cause
    exact Machine.step_eq_halted_iff_stopped
  · intro pad m
    exact Machine.step_eq_done_iff_not_stopped
  · intro random events cause h
    exact arises_of_run settings random events cause h

/-- Where no call may be open, the first call is one too many. -/
theorem halts_exactly_first_call :
    let settings : Settings := { stackLimit := some 0 }
    let c := (start settings (.ofSeed 0)).run [.load [0x22, 0x00], .tick]
    c.fault = some (.callDepth 0) ∧ (Fault.callDepth 0).Arises settings := by
  intro settings c
  let loaded := (start settings (.ofSeed 0)).run [.load [0x22, 0x00]]
  have hm : loaded.machine.memory = Memory.initial.overwrite programStart [0x22, 0x00] := by
    show ((start settings (.ofSeed 0)).load _).console.machine.memory = _
    rw [load_of_le (by decide)]
    rfl
  have hf : loaded.machine.fetch = .ok 0x2200 :=
    Machine.fetch_of_image (k := 0) hm rfl (by decide) (by decide)
  have hb : loaded.machine.Blocked settings 0x2200 (.callDepth 0) :=
    .call (by decide) rfl (Nat.zero_le _)
  have hs : loaded.machine.step settings loaded.pad = .halted (.callDepth 0) loaded.machine.past :=
    Machine.step_eq_halted_iff.mpr (.inr ⟨_, hf, hb.obstacle?_eq, rfl⟩)
  have hc : c.fault = some (.callDepth 0) := by
    show loaded.tick.console.fault = _
    rw [console_tick rfl rfl]
    show (loaded.finish (loaded.machine.batch settings loaded.pad (9 + 1))).fault = _
    rw [Machine.batch, hs]
    rfl
  obtain ⟨-, -, -, -, hrun⟩ := halts_exactly settings
  exact ⟨hc, hrun _ _ _ hc⟩

/-! ## What halts leaves everything before it as it was -/

/-- An instruction that cannot be carried out changes nothing. A tick that meets one keeps what its
batch did before, moves the counter on if the word could be fetched, and notes the fault. The
timers do not run and nothing is signalled. -/
theorem halts_in_place :
    (∀ settings pad (m m' : Machine) word cause,
      (Instruction.ofWord word).execute settings pad m = .halted cause m' → m' = m) ∧
    ∀ (c : Console) cause, c.fault = none → c.awaitsKey = false → c.tick.result = .error cause →
      ∃ k < c.settings.instructionsPerTick, ∃ m left : Machine,
        c.machine.batch c.settings c.pad k = .done m ∧
        ((m.fetch = .error cause ∧ left = m) ∨
          ∃ word, m.fetch = .ok word ∧
            (Instruction.ofWord word).execute c.settings c.pad m.past = .halted cause m.past ∧
            left = { m with counter := m.counter + 2 }) ∧
        c.tick = ⟨.error cause, { c with machine := left, fault := some cause }, []⟩ := by
  constructor
  · intro settings pad m m' word cause h
    exact (Instruction.execute_eq_halted_iff.mp h).2
  · intro c cause hf hk hr
    have ht := tick_of_runs hf hk
    cases hb : c.runBatch with
    | done m =>
      rw [hb] at ht
      rw [ht] at hr
      cases hr
    | halted cause' left =>
      rw [hb] at ht
      rw [ht] at hr
      cases hr
      -- the batch ended with a fault, so one of its steps was the first to
      obtain ⟨k, hlt, m, hm, hs⟩ := Machine.batch_halted hb
      refine ⟨k, hlt, m, left, hm, ?_, ht⟩
      rcases Machine.step_eq_halted_iff.mp hs with hfetch | ⟨word, hw, ho, hleft⟩
      · exact .inl hfetch
      · refine .inr ⟨word, hw, ?_, hleft⟩
        exact Instruction.execute_eq_halted_iff.mpr
          ⟨(Machine.obstacle?_past _).trans ho, rfl⟩

/-- A program that loads a register and then returns from no call. -/
def astray : Console where
  machine := { Machine.initial (.ofSeed 0) with
    memory := Memory.zero.overwrite programStart [0x60, 0x01, 0x00, 0xEE]
    delay := 7 }
  settings := { instructionsPerTick := 3 }
  pad := .released
  fault := none

theorem halts_in_place_astray :
    astray.tick.result = .error .emptyCallStack ∧ astray.tick.signals = [] ∧
      astray.tick.console.pad = astray.pad ∧
      astray.tick.console.fault = some .emptyCallStack ∧
      ∃ m, (Instruction.ofWord 0x00EE).execute astray.settings astray.pad astray.machine =
        .halted .emptyCallStack m ∧ m = astray.machine := by
  let m := astray.machine
  let next := m.after astray.settings astray.pad 0x6001
  have hm : m.memory = Memory.zero.overwrite programStart [0x60, 0x01, 0x00, 0xEE] := rfl
  have hf : m.fetch = .ok 0x6001 := Machine.fetch_of_image (k := 0) hm rfl (by decide) (by decide)
  have hs : m.step astray.settings astray.pad = .done next :=
    Machine.step_eq_done_iff.mpr ⟨_, hf, rfl, rfl⟩
  have hm' : next.memory = m.memory := by
    show (Instruction.ofWord 0x6001).memoryAfter m.past = _
    rw [show Instruction.ofWord 0x6001 = .load 0x0 0x01 from rfl]
    rfl
  have hf' : next.fetch = .ok 0x00EE :=
    Machine.fetch_of_image (k := 2) (hm'.trans hm) rfl (by decide) (by decide)
  have hs' : next.step astray.settings astray.pad = .halted .emptyCallStack next.past :=
    Machine.step_eq_halted_iff.mpr (.inr ⟨_, hf', rfl, rfl⟩)
  have hb : astray.runBatch = .halted .emptyCallStack next.past := by
    show m.batch astray.settings astray.pad 3 = _
    rw [Machine.batch, hs]
    dsimp only
    rw [Machine.batch, hs']
  have hr : astray.tick.result = .error .emptyCallStack := by
    rw [tick_of_runs rfl rfl, hb]
  have he : (Instruction.ofWord 0x00EE).execute astray.settings astray.pad m =
      .halted .emptyCallStack m :=
    Instruction.execute_eq_halted_iff.mpr ⟨rfl, rfl⟩
  obtain ⟨k, -, last, left, -, -, ht⟩ := halts_in_place.2 astray _ rfl rfl hr
  refine ⟨hr, ?_, ?_, ?_, ?_⟩
  · rw [ht]
  · rw [ht]
  · rw [ht]
  · exact ⟨m, he, halts_in_place.1 _ _ _ _ _ _ he⟩

end Console

end ChipEight
