import ChipEight.Proofs.History

/-!
# Consoles at rest

A console rests while it keeps a fault or awaits a key. Ticks leave it as it is then, and its
machine changes only by what the other events put in: images that fit go to memory, and the first
key goes to the register that awaits one.

* `machine_handle`: an event other than a tick changes the machine by what it puts in
* `machine_handle_of_rests`: at rest, so does every event
* `Path.awaiting_eq`: the register that awaits a key is that of the latest `Fx0A`
-/

namespace ChipEight

/-! ## What events put in -/

namespace Event

/-- The bytes that an event brings as an image. -/
def offered? : Event → Option (List UInt8)
  | .load image => some image
  | .loadFrom source => (Image.ofReadings source).toOption
  | _ => none

/-- The image that an event copies into memory: one that fits. -/
def image? (event : Event) : Option (List UInt8) :=
  event.offered?.filter fun image => image.length ≤ programCapacity

/-- The key that an event puts in. -/
def key? : Event → Option UInt8
  | .press key => some key
  | .deliver key => some key
  | _ => none

theorem image?_load {image : List UInt8} (h : image.length ≤ programCapacity) :
    (Event.load image).image? = some image := by
  simp [image?, offered?, h]

theorem image?_load_of_lt {image : List UInt8} (h : programCapacity < image.length) :
    (Event.load image).image? = none := by
  simp [image?, offered?, h]

end Event

namespace Machine

/-- The machine after a key was put in, or after none was. -/
def keyed (m : Machine) (key : Option UInt8) : Machine :=
  match m.awaiting, key with
  | some x, some key => { m with registers := m.registers.setNumbered x key, awaiting := none }
  | _, _ => m

/-- The machine after images were copied to where programs start. -/
def copied (m : Machine) (images : List (List UInt8)) : Machine :=
  { m with
    memory := images.foldl (fun memory image => memory.overwrite programStart image) m.memory }

/-- The machine after all that events put in: every image and the first key. -/
def received (m : Machine) (events : List Event) : Machine :=
  (m.keyed (events.findSome? Event.key?)).copied (events.filterMap Event.image?)

variable {m : Machine}

@[simp] theorem keyed_none (m : Machine) : m.keyed none = m := by
  unfold keyed
  split
  · next h => cases h
  · rfl

theorem keyed_of_awaiting {x : UInt8} (h : m.awaiting = some x) (key : UInt8) :
    m.keyed (some key) =
      { m with registers := m.registers.setNumbered x key, awaiting := none } := by
  simp only [keyed, h]

theorem keyed_of_not_awaiting (h : m.awaiting = none) (key : Option UInt8) : m.keyed key = m := by
  simp only [keyed, h]

theorem awaiting_keyed (m : Machine) (key : UInt8) : (m.keyed (some key)).awaiting = none := by
  cases h : m.awaiting with
  | none => rw [keyed_of_not_awaiting h, h]
  | some x => rw [keyed_of_awaiting h]

/-- The first key is the only one that counts. -/
theorem keyed_keyed (m : Machine) (key : UInt8) (next : Option UInt8) :
    (m.keyed (some key)).keyed next = m.keyed (some key) :=
  keyed_of_not_awaiting (awaiting_keyed m key) next

@[simp] theorem copied_nil (m : Machine) : m.copied [] = m := rfl

theorem copied_copied (m : Machine) (images next : List (List UInt8)) :
    (m.copied images).copied next = m.copied (images ++ next) := by
  simp only [copied, List.foldl_append]

theorem keyed_copied (m : Machine) (images : List (List UInt8)) (key : Option UInt8) :
    (m.copied images).keyed key = (m.keyed key).copied images := by
  have ha : (m.copied images).awaiting = m.awaiting := rfl
  cases key with
  | none => rw [keyed_none, keyed_none]
  | some key =>
    cases h : m.awaiting with
    | none => rw [keyed_of_not_awaiting (ha.trans h), keyed_of_not_awaiting h]
    | some x =>
      rw [keyed_of_awaiting (ha.trans h), keyed_of_awaiting h]
      rfl

@[simp] theorem received_nil (m : Machine) : m.received [] = m := keyed_none m

theorem received_cons (m : Machine) (event : Event) (rest : List Event) :
    m.received (event :: rest) = (m.received [event]).received rest := by
  have hi : (event :: rest).filterMap Event.image? =
      [event].filterMap Event.image? ++ rest.filterMap Event.image? := by
    rw [← List.filterMap_append, List.singleton_append]
  unfold received
  rw [hi, keyed_copied, copied_copied]
  cases hk : event.key? with
  | none => simp [hk]
  | some key => simp [hk, keyed_keyed]

theorem counter_received (m : Machine) (events : List Event) :
    (m.received events).counter = m.counter := by
  unfold received copied keyed
  split <;> rfl

/-- No image reaches below the place where programs start. -/
theorem byteAt_received {a : Nat} (h : a < programStart) (events : List Event) :
    (m.received events).memory.byteAt a = m.memory.byteAt a := by
  have hkeyed : ∀ key, (m.keyed key).memory = m.memory := by
    intro key
    unfold keyed
    split <;> rfl
  unfold received
  rw [← hkeyed (events.findSome? Event.key?)]
  generalize m.keyed _ = m
  show (List.foldl _ m.memory _).byteAt a = _
  generalize m.memory = memory
  induction events.filterMap Event.image? generalizing memory with
  | nil => rfl
  | cons image rest ih =>
    rw [List.foldl_cons, ih, Memory.byteAt_overwrite, if_neg]
    omega

end Machine

namespace Console

variable {c d : Console} {change : Change} {xs : List Moment}

theorem machine_load (c : Console) (image : List UInt8) :
    (c.load image).console.machine = c.machine.received [.load image] := by
  by_cases h : image.length ≤ programCapacity
  · rw [load_of_le h]
    simp [Machine.received, Event.image?_load h, Event.key?, Machine.copied]
  · rw [load_of_lt (Nat.lt_of_not_le h)]
    simp [Machine.received, Event.image?_load_of_lt (Nat.lt_of_not_le h), Event.key?]

theorem machine_deliver (c : Console) (key : UInt8) :
    (c.deliver key).machine = c.machine.keyed (some key) := by
  unfold deliver
  cases h : c.machine.awaiting with
  | none => rw [Machine.keyed_of_not_awaiting h]
  | some x => rw [Machine.keyed_of_awaiting h]

theorem machine_handle {event : Event} (h : event ≠ .tick) :
    (c.handle event).console.machine = c.machine.received [event] := by
  cases event with
  | tick => exact absurd rfl h
  | load image => exact machine_load c image
  | loadFrom source =>
    show (c.loadFrom source).console.machine = _
    unfold loadFrom
    cases hs : Image.ofReadings source with
    | ok image =>
      -- a source that is read whole puts in what an image does
      have hi : (Event.loadFrom source).image? = (Event.load image).image? := by
        simp [Event.image?, Event.offered?, hs, Except.toOption]
      have hr : c.machine.received [.loadFrom source] = c.machine.received [.load image] := by
        unfold Machine.received
        rw [List.filterMap_cons, List.filterMap_cons, hi]
        rfl
      rw [hr]
      exact machine_load c image
    | error cause =>
      have hi : (Event.loadFrom source).image? = none := by
        simp [Event.image?, Event.offered?, hs, Except.toOption]
      simp [Machine.received, hi, Event.key?]
  | press key => exact machine_deliver { c with pad := c.pad.press key } key
  | deliver key => exact machine_deliver c key
  | release | volume => exact (Machine.keyed_none _).symm

/-! ## Rest -/

/-- Whether a tick of a console runs no batch. -/
def rests (c : Console) : Bool := c.fault.isSome || c.awaitsKey

theorem awaitsKey_eq_false_iff : c.awaitsKey = false ↔ c.machine.awaiting = none := by
  simp [awaitsKey]

theorem rests_of_fault {cause : Fault} (h : c.fault = some cause) : c.rests = true := by
  simp [rests, h]

theorem rests_of_awaitsKey (h : c.awaitsKey = true) : c.rests = true := by
  simp [rests, h]

theorem rests_of_awaiting {x : UInt8} (h : c.machine.awaiting = some x) : c.rests = true :=
  rests_of_awaitsKey (by simp [awaitsKey, h])

theorem console_tick_of_rests (h : c.rests = true) : c.tick.console = c := by
  cases hf : c.fault with
  | some cause => rw [tick_of_fault hf]
  | none =>
    have hk : c.awaitsKey = true := by simpa [rests, hf] using h
    rw [tick_of_awaitsKey hf hk]

theorem moments_tick_of_rests (h : c.rests = true) : c.moments .tick = [] := if_pos h

theorem moments_tick_of_not_rests (h : c.rests = false) :
    c.moments .tick = batchMoments c.settings.instructionsPerTick c :=
  if_neg (Bool.eq_false_iff.mp h)

theorem machine_handle_of_rests (h : c.rests = true) (event : Event) :
    (c.handle event).console.machine = c.machine.received [event] := by
  by_cases he : event = .tick
  · subst he
    show c.tick.console.machine = _
    rw [console_tick_of_rests h]
    exact (Machine.keyed_none _).symm
  · exact machine_handle he

/-! ## The register that awaits a key -/

end Console

/-- The number of a register, as the machine keeps it while the register awaits a key. -/
def Register.number (x : Register) : UInt8 := UInt8.ofNat x.val

/-- The register that a word awaits a key for. -/
def Word.awaits? (w : UInt16) : Option Register :=
  if (Word.family w).val = 0xF ∧ Word.kk w = 0x0A then some (Word.x w) else none

/-- The register that a word of this moment awaits a key for. -/
def Moment.awaits? (x : Moment) : Option Register :=
  match x.change with
  | .word w => Word.awaits? w
  | _ => none

/-- The registers of the `Fx0A` that were carried out, in order. -/
def waits (xs : List Moment) : List Register := xs.filterMap Moment.awaits?

theorem getLast?_filterMap_cons {α β : Type} (f : α → Option β) (a : α) (rest : List α) :
    ((a :: rest).filterMap f).getLast? = (rest.filterMap f).getLast?.or (f a) := by
  rw [List.getLast?_filterMap, List.getLast?_filterMap, List.reverse_cons, List.findSome?_append]
  exact congrArg _ List.findSome?_singleton

theorem getLast?_waits_cons (x : Moment) (rest : List Moment) :
    (waits (x :: rest)).getLast? = (waits rest).getLast?.or x.awaits? :=
  getLast?_filterMap_cons Moment.awaits? x rest

theorem Instruction.awaitingAfter_ofWord (m : Machine) (w : UInt16) :
    (ofWord w).awaitingAfter m =
      ((Word.awaits? w).map Register.number).or m.awaiting := by
  by_cases h : (Word.family w).val = 0xF ∧ Word.kk w = 0x0A
  · rw [ofWord_eq_of_spells (.awaitKey (Fin.ext h.1) h.2), Word.awaits?, if_pos h]
    rfl
  · rw [Word.awaits?, if_neg h]
    have hs := spells_ofWord w
    generalize ofWord w = i at hs
    cases hs with
    | awaitKey hf hk => exact absurd ⟨congrArg Fin.val hf, hk⟩ h
    | _ => rfl

namespace Console

variable {c d : Console} {change : Change} {xs : List Moment}

/-- A change of the console itself sets the register that awaits a key or lets it be. What comes
from outside may also clear it. -/
theorem Moves.awaiting_eq (hm : c.Moves change d) :
    d.machine.awaiting =
        ((Moment.awaits? ⟨change, c, d⟩).map Register.number).or c.machine.awaiting ∨
      d.machine.awaiting = none ∧ ∃ event, change = .host event := by
  cases hm with
  | @word w m hf hp =>
    obtain ⟨-, rfl⟩ := Machine.perform_eq_done_iff.mp hp
    exact .inl (Instruction.awaitingAfter_ofWord c.machine.past w)
  | @halt cause m hs =>
    rw [Machine.eq_of_step_halted hs]
    exact .inl rfl
  | timers => exact .inl rfl
  | @host event he =>
    have ht := touched_handle (c := c) he
    generalize (c.handle event).console.machine = m at ht
    cases ht with
    | alone | loaded => exact .inl rfl
    | delivered => exact .inr ⟨rfl, event, rfl⟩

/-- From the inside, only the latest `Fx0A` counts. -/
theorem Path.awaiting_eq (hp : Path c xs d) (hi : ∀ x ∈ xs, ∀ event, x.change ≠ .host event) :
    d.machine.awaiting =
      ((waits xs).getLast?.map Register.number).or c.machine.awaiting := by
  induction hp with
  | nil => rfl
  | @cons c next d change rest hm _ ih =>
    have hn := ih fun x hx => hi x (List.mem_cons_of_mem _ hx)
    rcases hm.awaiting_eq with ha | ⟨-, event, rfl⟩
    · rw [hn, ha, getLast?_waits_cons, Option.map_or, Option.or_assoc]
    · exact absurd rfl (hi _ List.mem_cons_self event)

/-- Without an `Fx0A`, no register comes to await a key. -/
theorem Path.awaiting_eq_none (hp : Path c xs d) (h : c.machine.awaiting = none)
    (hw : waits xs = []) : d.machine.awaiting = none := by
  induction hp with
  | nil => exact h
  | @cons c next d change rest hm _ ih =>
    rw [waits, List.filterMap_eq_nil_iff] at hw
    refine ih ?_ (List.filterMap_eq_nil_iff.mpr fun x hx => hw x (List.mem_cons_of_mem _ hx))
    rcases hm.awaiting_eq with ha | ⟨ha, -⟩
    · rw [ha, hw _ List.mem_cons_self, h]
      rfl
    · exact ha

/-- After a batch the register of its latest `Fx0A` awaits a key, whether or not a fault ended it. -/
theorem awaiting_tick (hf : c.fault = none) (hk : c.awaitsKey = false) :
    c.tick.console.machine.awaiting =
      (waits (c.moments .tick)).getLast?.map Register.number := by
  have hn : c.machine.awaiting = none := awaitsKey_eq_false_iff.mp hk
  have hp : Path c (c.moments .tick) c.tick.console := path_moments c .tick
  have hi : ∀ x ∈ c.moments .tick, ∀ event, x.change ≠ .host event := by
    rw [moments_tick_of_runs hf hk]
    exact fun x hx => (of_mem_batchMoments hx).2
  rw [hp.awaiting_eq hi, hn, Option.or_none]

end Console

end ChipEight
