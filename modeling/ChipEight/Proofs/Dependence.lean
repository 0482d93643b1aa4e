import ChipEight.Proofs.Rest

/-!
# What changes depend on

Carrying out a word looks at three of the settings, and only `Fx07` looks at a timer. The events
that are no ticks look at less still: what they answer and signal depends on the event alone.

To say that something plays no part, two consoles are compared by what is left of them when it is
blotted out: `Console.map` does that to the machine and to the settings.

* `step_of_sameRules`, `batch_of_sameRules`: which settings words look at
* `effect_withTimers`: words other than `Fx07` do not look at the timers
* `handle_map`: events other than ticks treat alike what is alike
-/

namespace ChipEight

/-! ## Settings -/

/-- Whether two settings agree on everything that words look at. -/
structure Settings.SameRules (settings settings' : Settings) : Prop where
  stackLimit : settings'.stackLimit = settings.stackLimit
  addSetsCarry : settings'.addSetsCarry = settings.addSetsCarry
  fullRandomRange : settings'.fullRandomRange = settings.fullRandomRange

variable {settings settings' : Settings} {pad : HexPad} {m : Machine}

/-- What is blotted out of settings may be anything that words do not look at. -/
theorem Settings.sameRules_of_eq {g : Settings → Settings} (hg : ∀ s : Settings, s.SameRules (g s))
    (h : g settings = g settings') : settings.SameRules settings' where
  stackLimit := by rw [← (hg settings).stackLimit, ← (hg settings').stackLimit, h]
  addSetsCarry := by rw [← (hg settings).addSetsCarry, ← (hg settings').addSetsCarry, h]
  fullRandomRange := by rw [← (hg settings).fullRandomRange, ← (hg settings').fullRandomRange, h]

theorem Instruction.execute_of_sameRules (h : settings.SameRules settings') (i : Instruction) :
    i.execute settings' pad m = i.execute settings pad m := by
  have ho : i.obstacle? settings' m = i.obstacle? settings m := by
    cases i <;> simp only [obstacle?, h.stackLimit]
  have he : i.effect settings' pad m = i.effect settings pad m := by
    cases i <;> simp only [effect, registersAfter, randomAfter, h.addSetsCarry, h.fullRandomRange]
  rw [execute_eq, execute_eq, ho, he]

namespace Machine

theorem step_of_sameRules (h : settings.SameRules settings') (m : Machine) :
    m.step settings' pad = m.step settings pad := by
  unfold step
  cases m.fetch with
  | ok word => exact Instruction.execute_of_sameRules h _
  | error cause => rfl

theorem batch_of_sameRules (h : settings.SameRules settings') (n : Nat) (m : Machine) :
    m.batch settings' pad n = m.batch settings pad n := by
  induction n generalizing m with
  | zero => rfl
  | succ n ih =>
    rw [batch, batch, step_of_sameRules h]
    cases m.step settings pad with
    | done next => exact ih next
    | halted cause next => rfl

end Machine

/-! ## Outcomes up to something -/

/-- The outcome with something of its machine blotted out. -/
def Outcome.map (f : Machine → Machine) : Outcome → Outcome
  | .done m => .done (f m)
  | .halted cause m => .halted cause (f m)

namespace Machine

/-- Batches treat alike what steps treat alike. -/
theorem batch_map {f : Machine → Machine}
    (hstep : ∀ {m m' : Machine}, f m = f m' →
      (m.step settings pad).map f = (m'.step settings pad).map f) (n : Nat)
    {m m' : Machine} (h : f m = f m') :
    (m.batch settings pad n).map f = (m'.batch settings pad n).map f := by
  induction n generalizing m m' with
  | zero => exact congrArg Outcome.done h
  | succ n ih =>
    have hs := hstep h
    rw [batch, batch]
    -- both steps end in the same way, so the two batches go on or halt together
    cases ho : m.step settings pad with
    | done next =>
      cases ho' : m'.step settings pad with
      | done next' =>
        rw [ho, ho'] at hs
        exact ih (Outcome.done.inj hs)
      | halted cause' next' =>
        rw [ho, ho'] at hs
        cases hs
    | halted cause next =>
      cases ho' : m'.step settings pad with
      | done next' =>
        rw [ho, ho'] at hs
        cases hs
      | halted cause' next' =>
        rw [ho, ho'] at hs
        exact hs

/-! ## Timers -/

/-- The machine with other timers. -/
def withTimers (m : Machine) (delay sound : UInt8) : Machine := { m with delay, sound }

theorem obstacle?_withTimers (settings : Settings) (m : Machine) (delay sound : UInt8)
    (word : UInt16) :
    (m.withTimers delay sound).obstacle? settings word = m.obstacle? settings word := by
  unfold obstacle?
  cases Instruction.ofWord word <;> rfl

theorem received_withTimers (m : Machine) (delay sound : UInt8) (events : List Event) :
    (m.withTimers delay sound).received events =
      (m.received events).withTimers delay sound := by
  have hkeyed : ∀ key, (m.withTimers delay sound).keyed key =
      (m.keyed key).withTimers delay sound := by
    intro key
    have ha : (m.withTimers delay sound).awaiting = m.awaiting := rfl
    unfold keyed
    rw [ha]
    split <;> rfl
  unfold received
  rw [hkeyed]
  rfl

end Machine

/-- Only a word that reads the delay timer can tell which timers a machine has. What it makes of
the timers themselves is told by their own columns. -/
theorem Instruction.effect_withTimers {i : Instruction} {delay sound : UInt8}
    (h : (∀ x, i ≠ .readDelay x) ∨ delay = m.delay) :
    i.effect settings pad (m.withTimers delay sound) =
      (i.effect settings pad m).withTimers (i.delayAfter (m.withTimers delay sound))
        (i.soundAfter (m.withTimers delay sound)) := by
  cases i with
  | readDelay x =>
    obtain hx | rfl := h
    · exact absurd rfl (hx x)
    · rfl
  | _ => rfl

/-! ## Consoles up to something -/

/-- What is left of a console when something of its machine and of its settings is blotted out. -/
def Console.map (f : Machine → Machine) (g : Settings → Settings) (c : Console) : Console :=
  { c with machine := f c.machine, settings := g c.settings }

namespace Console

variable {c d : Console} {event : Event} {f : Machine → Machine} {g : Settings → Settings}

theorem map_eq_iff :
    c.map f g = d.map f g ↔
      f c.machine = f d.machine ∧ g c.settings = g d.settings ∧ c.pad = d.pad ∧
        c.fault = d.fault := by
  rw [map, map, mk.injEq]

theorem pad_deliver (c : Console) (key : UInt8) : (c.deliver key).pad = c.pad := by
  unfold deliver
  split <;> rfl

/-- What an event other than a tick makes of the keypad depends on the keypad alone. -/
theorem pad_handle (he : event ≠ .tick) (h : c.pad = d.pad) :
    (c.handle event).console.pad = (d.handle event).console.pad := by
  have hload : ∀ (c : Console) image, (c.load image).console.pad = c.pad := by
    intro c image
    unfold load
    split <;> rfl
  cases event with
  | tick => exact absurd rfl he
  | load image => exact (hload c image).trans (h.trans (hload d image).symm)
  | loadFrom source =>
    show (c.loadFrom source).console.pad = (d.loadFrom source).console.pad
    unfold loadFrom
    cases Image.ofReadings source with
    | ok image => exact (hload c image).trans (h.trans (hload d image).symm)
    | error cause => exact h
  | press key =>
    refine (pad_deliver _ key).trans (Eq.trans ?_ (pad_deliver _ key).symm)
    exact congrArg (HexPad.press · key) h
  | release key => exact congrArg (HexPad.release · key) h
  | deliver key => exact (pad_deliver c key).trans (h.trans (pad_deliver d key).symm)
  | volume percent => exact h

/-- What an event other than a tick answers and signals depends on the event alone. -/
theorem answer_handle (he : event ≠ .tick) (c d : Console) :
    (c.handle event).result = (d.handle event).result ∧
      (c.handle event).signals = (d.handle event).signals := by
  have hload : ∀ image, (c.load image).result = (d.load image).result ∧
      (c.load image).signals = (d.load image).signals := by
    intro image
    by_cases h : image.length ≤ programCapacity
    · rw [load_of_le h, load_of_le h]
      exact ⟨rfl, rfl⟩
    · rw [load_of_lt (Nat.lt_of_not_le h), load_of_lt (Nat.lt_of_not_le h)]
      exact ⟨rfl, rfl⟩
  cases event with
  | tick => exact absurd rfl he
  | load image => exact hload image
  | loadFrom source =>
    show (c.loadFrom source).result = (d.loadFrom source).result ∧
      (c.loadFrom source).signals = (d.loadFrom source).signals
    unfold loadFrom
    cases Image.ofReadings source with
    | ok image => exact hload image
    | error cause => exact ⟨rfl, rfl⟩
  | press | release | deliver | volume => exact ⟨rfl, rfl⟩

/-- Events other than ticks leave consoles alike that were alike before, if what they put into a
machine goes past what is blotted out. -/
theorem handle_map (hf : ∀ m : Machine, f (m.received [event]) = (f m).received [event])
    (he : event ≠ .tick) (h : c.map f g = d.map f g) :
    (c.handle event).console.map f g = (d.handle event).console.map f g := by
  obtain ⟨hmachine, hsettings, hpad, hfault⟩ := map_eq_iff.mp h
  refine map_eq_iff.mpr ⟨?_, ?_, pad_handle he hpad, ?_⟩
  · rw [machine_handle he, machine_handle he, hf, hf, hmachine]
  · rw [settings_handle, settings_handle, hsettings]
  · rw [fault_handle he, fault_handle he, hfault]

/-- Batches that end alike leave consoles alike that were alike before, if the timers do not bring
back what is blotted out. -/
theorem finish_map {o o' : Outcome}
    (hadvance : ∀ {m m' : Machine}, f m = f m' →
      f { m with toState := m.toState.advanceTimers } =
        f { m' with toState := m'.toState.advanceTimers })
    (h : c.map f g = d.map f g) (ho : o.map f = o'.map f) :
    (c.finish o).map f g = (d.finish o').map f g := by
  obtain ⟨-, hsettings, hpad, hfault⟩ := map_eq_iff.mp h
  cases o with
  | done m =>
    cases o' with
    | done m' => exact map_eq_iff.mpr ⟨hadvance (Outcome.done.inj ho), hsettings, hpad, hfault⟩
    | halted => cases ho
  | halted cause m =>
    cases o' with
    | done => cases ho
    | halted cause' m' =>
      obtain ⟨rfl, hm⟩ := Outcome.halted.inj ho
      exact map_eq_iff.mpr ⟨hm, hsettings, hpad, rfl⟩

end Console

end ChipEight
