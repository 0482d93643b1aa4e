import ChipEight.Proofs.Dependence
import ChipEight.Proofs.Footprint
import ChipEight.Proofs.KeyWait
import ChipEight.Proofs.SessionFilter

/-!
# What a program sees of the keys

Between two ticks keys may go down, come up and be delivered in any order. What is left of that for
the program is what happened last to each key of the pad, and the first key that was put in, which
goes to the register that awaits one. A byte past `F` is no key of the pad, but it is put in like
any other: a register that awaits a key takes it.

* `isDown_run`: the last press or release of a key tells whether it is down
* `machine_run_of_keys`: the first key is the one that a register takes
* `perform_of_asks`: what the words do that ask the pad
* `keys_seen`: all of it, for any order of the keys
* `resumes_iff_on_pad`: a wait that a press ends leaves its register with a key that is down if the
  key is one of the pad, and only then
-/

namespace ChipEight

/-! ## Keys among events -/

namespace Event

/-- Whether an event puts a key down, lets one up or delivers one. -/
def isKey : Event → Bool
  | .press _ | .release _ | .deliver _ => true
  | _ => false

/-- Whether an event puts a key down (`true`) or lets it up (`false`), if it does either. -/
def switches? (key : UInt8) : Event → Option Bool
  | .press other => if other = key then some true else none
  | .release other => if other = key then some false else none
  | _ => none

theorem ne_tick_of_isKey {event : Event} (h : event.isKey = true) : event ≠ .tick := by
  rintro rfl
  cases h

theorem image?_of_isKey {event : Event} (h : event.isKey = true) : event.image? = none := by
  cases event with
  | press | release | deliver => rfl
  | _ => cases h

end Event

/-- What the last press or release of a key did to it, if there is one among events. -/
def lastSwitch? (key : UInt8) (events : List Event) : Option Bool :=
  (events.filterMap (Event.switches? key)).getLast?

theorem lastSwitch?_cons (key : UInt8) (event : Event) (rest : List Event) :
    lastSwitch? key (event :: rest) = (lastSwitch? key rest).or (event.switches? key) :=
  getLast?_filterMap_cons (Event.switches? key) event rest

/-- The keys of the pad are the hexadecimal digits. -/
theorem HexPad.le_iff_lt_keyCount (key : UInt8) : key ≤ 0xF ↔ key.toNat < keyCount :=
  Nat.lt_succ_iff.symm

/-- A keypad is known by which of its keys are down. -/
theorem HexPad.ext_isDown {pad other : HexPad}
    (h : ∀ key : UInt8, key.toNat < keyCount → pad.isDown key = other.isDown key) :
    pad = other := by
  cases pad with | mk down => cases other with | mk down' =>
  congr 1
  refine Vector.ext fun k hk => ?_
  have hlt : k < 16 := hk
  have hkey : (UInt8.ofNat k).toNat = k := by
    rw [UInt8.toNat_ofNat']
    omega
  have hdown := h (UInt8.ofNat k) (by rw [hkey]; exact hk)
  simpa [isDown, hkey, hk] using hdown

/-- Pressing a byte that is no key of the pad does nothing to it. -/
theorem HexPad.press_of_le {pad : HexPad} {key : UInt8} (h : keyCount ≤ key.toNat) :
    pad.press key = pad := by
  refine ext_isDown fun other hother => ?_
  rw [isDown_press, if_neg]
  rintro ⟨rfl, hlt⟩
  omega

namespace Console

variable {c : Console} {x : Register} {key : UInt8} {event : Event} {events : List Event}

theorem pad_press (c : Console) (key : UInt8) : (c.press key).pad = c.pad.press key :=
  pad_deliver _ key

/-! ## The pad -/

theorem isDown_handle (hk : key.toNat < keyCount) (h : event.isKey = true) :
    (c.handle event).console.pad.isDown key = (event.switches? key).getD (c.pad.isDown key) := by
  cases event with
  | press other =>
    show (c.press other).pad.isDown key = (if other = key then some true else none).getD _
    rw [pad_press, HexPad.isDown_press]
    by_cases he : other = key <;> simp [he, hk]
  | release other =>
    show (c.pad.release other).isDown key = (if other = key then some false else none).getD _
    rw [HexPad.isDown_release]
    by_cases he : other = key <;> simp [he]
  | deliver other => exact congrArg (HexPad.isDown · key) (pad_deliver c other)
  | _ => cases h

/-- The last press or release of a key of the pad tells whether it is down. -/
theorem isDown_run (hk : key.toNat < keyCount) (h : ∀ event ∈ events, event.isKey = true) :
    (c.run events).pad.isDown key = (lastSwitch? key events).getD (c.pad.isDown key) := by
  -- what an event does to the key is the default for what comes after it
  induction events generalizing c with
  | nil => rfl
  | cons event rest ih =>
    have hrest := ih (c := (c.handle event).console) fun e he => h e (List.mem_cons_of_mem _ he)
    rw [run_cons, hrest, isDown_handle hk (h event List.mem_cons_self), lastSwitch?_cons]
    cases lastSwitch? key rest <;> rfl

/-! ## The rest of the console -/

/-- The first key that is put in is the one that a register takes. -/
theorem machine_run_of_keys (h : ∀ event ∈ events, event.isKey = true) :
    (c.run events).machine = c.machine.keyed (events.findSome? Event.key?) := by
  -- once a key was put in no register awaits one, so a later key comes to nothing: `keyed_keyed`
  induction events generalizing c with
  | nil => exact (Machine.keyed_none _).symm
  | cons event rest ih =>
    have hrest := ih (c := (c.handle event).console) fun e he => h e (List.mem_cons_of_mem _ he)
    have hkey := h event List.mem_cons_self
    rw [run_cons, hrest, machine_handle (Event.ne_tick_of_isKey hkey), Machine.received]
    cases hk : event.key? with
    | none => simp [hk, Event.image?_of_isKey hkey]
    | some key => simp [hk, Event.image?_of_isKey hkey, Machine.keyed_keyed]

theorem fault_run_of_keys (h : ∀ event ∈ events, event.isKey = true) :
    (c.run events).fault = c.fault := by
  induction events generalizing c with
  | nil => rfl
  | cons event rest ih =>
    rw [run_cons, ih fun e he => h e (List.mem_cons_of_mem _ he),
      fault_handle (Event.ne_tick_of_isKey (h event List.mem_cons_self))]

theorem signals_of_keys (h : ∀ event ∈ events, event.isKey = true) : c.signals events = [] := by
  induction events generalizing c with
  | nil => rfl
  | cons event rest ih =>
    rw [signals, ih fun e he => h e (List.mem_cons_of_mem _ he), List.append_nil]
    have hkey := h event List.mem_cons_self
    cases event with
    | press | release | deliver => rfl
    | _ => cases hkey

/-- Keys change the pad and the register that awaits a key, and nothing else. -/
theorem run_of_keys (h : ∀ event ∈ events, event.isKey = true) :
    c.run events =
      { c with
        machine := c.machine.keyed (events.findSome? Event.key?)
        pad := (c.run events).pad } := by
  have hmachine := machine_run_of_keys (c := c) h
  have hfault := fault_run_of_keys (c := c) h
  have hsettings := settings_run c events
  generalize c.run events = d at hmachine hfault hsettings
  obtain ⟨machine, settings, pad, fault⟩ := d
  obtain rfl : machine = _ := hmachine
  obtain rfl : settings = _ := hsettings
  obtain rfl : fault = _ := hfault
  rfl

end Console

/-! ## What a program asks the pad -/

namespace Machine

open Word

/-- The words that ask the pad cannot fail, and they move the counter and nothing else. -/
theorem perform_of_asks (settings : Settings) (pad : HexPad) (m : Machine) {w : UInt16}
    {i : Instruction} (hs : Spells w i) (hi : i = .skipPressed (x w) ∨ i = .skipReleased (x w)) :
    m.perform settings pad w =
      .done { m with counter := if i.skips pad m then m.counter + 4 else m.counter + 2 } := by
  have hw : family w = 0xE := by
    rcases hi with rfl | rfl <;> cases hs <;> assumption
  have hr : w ≠ 0x00EE := by
    rintro rfl
    exact absurd hw (by decide)
  have hcounter : i.counterAfter pad m.past = _ := counterAfter_of_straight hs hr (by simp [hw])
  rw [perform_eq_done_iff, obstacle?, after, Instruction.ofWord_eq_of_spells hs, ← hcounter]
  rcases hi with rfl | rfl <;> exact ⟨rfl, rfl⟩

end Machine

namespace Console

open Word

/-! ## Any order of keys -/

/-- Keys that go down, come up and are delivered between two ticks.

* A key is down afterwards if it is a key of the pad and its last press or release was a press, or
  if it had none and was down before.
* A register that awaits a key holds the first one that was put in, and awaits none any more. No
  other part of the console changes, and nothing is signalled.
* So keys with the same last press or release of each key of the pad, and the same first key that
  is put in, lead to the same console.
* Of the two words that ask the pad for one register exactly one skips, and for a byte that is no
  key of the pad it is the one that asks for a key that is up. -/
theorem keys_seen :
    (∀ (c : Console) (events : List Event), (∀ event ∈ events, event.isKey = true) →
      let d := c.run events
      (∀ key, d.pad.isDown key = true ↔
        key ≤ 0xF ∧ (lastSwitch? key events).getD (c.pad.isDown key) = true) ∧
      (∀ x key, c.machine.awaiting = some (Register.number x) →
        events.findSome? Event.key? = some key →
        d.machine =
          { c.machine with registers := c.machine.registers.set x key, awaiting := none }) ∧
      (c.machine.awaiting = none ∨ events.findSome? Event.key? = none → d.machine = c.machine) ∧
      d.settings = c.settings ∧ d.fault = c.fault ∧ c.signals events = []) ∧
    (∀ (c : Console) (events others : List Event),
      (∀ event ∈ events, event.isKey = true) → (∀ event ∈ others, event.isKey = true) →
      (∀ key ≤ 0xF, lastSwitch? key events = lastSwitch? key others) →
      events.findSome? Event.key? = others.findSome? Event.key? →
      c.run events = c.run others) ∧
    ∀ (settings : Settings) (pad : HexPad) (m : Machine) (pressed released : UInt16),
      family pressed = 0xE → kk pressed = 0x9E → family released = 0xE → kk released = 0xA1 →
      x released = x pressed →
      let down := pad.isDown (m.registers.get (x pressed))
      m.perform settings pad pressed =
        .done { m with counter := if down then m.counter + 4 else m.counter + 2 } ∧
      m.perform settings pad released =
        .done { m with counter := if down then m.counter + 2 else m.counter + 4 } ∧
      (0xF < m.registers.get (x pressed) → down = false) := by
  refine ⟨?_, ?_, ?_⟩
  · intro c events h d
    refine ⟨fun key => ?_, ?_, ?_, settings_run c events, fault_run_of_keys h, signals_of_keys h⟩
    · rw [HexPad.le_iff_lt_keyCount]
      by_cases hk : key.toNat < keyCount
      · rw [and_iff_right hk, isDown_run hk h]
      · rw [HexPad.isDown_of_le (Nat.le_of_not_lt hk)]
        simp [hk]
    · intro x key ha hkey
      show (c.run events).machine = _
      rw [machine_run_of_keys h, hkey, Machine.keyed_of_awaiting ha, Registers.setNumbered_number]
    · intro hnone
      show (c.run events).machine = _
      rw [machine_run_of_keys h]
      rcases hnone with ha | hkey
      · exact Machine.keyed_of_not_awaiting ha _
      · rw [hkey, Machine.keyed_none]
  · intro c events others h h' hswitch hkey
    have hdown : (c.run events).pad = (c.run others).pad := by
      refine HexPad.ext_isDown fun key hk => ?_
      rw [isDown_run hk h, isDown_run hk h', hswitch key ((HexPad.le_iff_lt_keyCount key).mpr hk)]
    rw [run_of_keys h, run_of_keys h', hkey, hdown]
  · intro settings pad m pressed released hp hpk hr hrk hx down
    have hpressed := Machine.perform_of_asks settings pad m (.skipPressed hp hpk) (.inl rfl)
    have hreleased := Machine.perform_of_asks settings pad m (.skipReleased hr hrk) (.inr rfl)
    refine ⟨hpressed, ?_, fun hlt => ?_⟩
    · rw [hreleased, Instruction.skips, hx]
      show Outcome.done { m with counter := if !down then m.counter + 4 else m.counter + 2 } = _
      clear_value down
      cases down <;> rfl
    · exact HexPad.isDown_of_le (Nat.succ_le_of_lt hlt)

/-- While `V3` awaits a key, `5` goes down and up again, a byte that is no key goes down, and `7` is
delivered. `V3` takes `5`, which is up by then. The same comes of fewer keys in another order, and
of the words that ask for the key in `V3` only the one that asks for a key that is up skips. -/
theorem keys_seen_out_of_order :
    let c := { ofProgram [] 1 with
      machine := { Machine.initial (.ofSeed 0) with awaiting := some (Register.number 0x3) } }
    let events : List Event := [.press 0x5, .press 0x2A, .release 0x5, .press 0xC, .deliver 0x7]
    let d := c.run events
    d.pad.isDown 0xC = true ∧ d.pad.isDown 0x5 = false ∧ d.pad.isDown 0x2A = false ∧
      d.machine =
        { c.machine with registers := c.machine.registers.set 0x3 0x5, awaiting := none } ∧
      d = c.run [.deliver 0x5, .press 0xC, .release 0x5] ∧
      d.machine.perform {} d.pad 0xE39E = .done { d.machine with counter := 0x202 } ∧
      d.machine.perform {} d.pad 0xE3A1 = .done { d.machine with counter := 0x204 } := by
  intro c events d
  have hkeys : ∀ event ∈ events, event.isKey = true := by simp [events, Event.isKey]
  have hothers : ∀ event ∈ [.deliver 0x5, .press 0xC, .release 0x5], Event.isKey event = true := by
    simp [Event.isKey]
  have hswitch : ∀ key ≤ 0xF, lastSwitch? key events =
      lastSwitch? key [.deliver 0x5, .press 0xC, .release 0x5] := by
    intro key hk
    have hbeyond : (0x2A : UInt8) ≠ key := by
      rintro rfl
      exact absurd hk (by decide)
    by_cases h5 : 0x5 = key
    · subst h5
      rfl
    · by_cases hC : 0xC = key
      · subst hC
        rfl
      · simp [lastSwitch?, events, Event.switches?, h5, hC, hbeyond]
  obtain ⟨hdown, hfirst, -⟩ := keys_seen.1 c events hkeys
  have hmachine : d.machine = _ := hfirst 0x3 0x5 rfl rfl
  have h5 : d.pad.isDown 0x5 = false := by
    refine Bool.eq_false_iff.mpr fun h => ?_
    exact absurd ((hdown 0x5).mp h).2 (by decide)
  have hregister : d.machine.registers.get 0x3 = 0x5 := by
    rw [hmachine]
    exact (Registers.get_set _ _ _ _).trans (if_pos rfl)
  have hcounter : d.machine.counter = 0x200 := by
    rw [hmachine]
    rfl
  obtain ⟨hpressed, hreleased, -⟩ := keys_seen.2.2 {} d.pad d.machine 0xE39E 0xE3A1
    (by decide) (by decide) (by decide) (by decide) (by decide)
  rw [show x 0xE39E = 0x3 by decide, hregister, h5, hcounter] at hpressed hreleased
  refine ⟨(hdown 0xC).mpr ⟨by decide, rfl⟩, h5, ?_, hmachine, ?_, hpressed, hreleased⟩
  · refine Bool.eq_false_iff.mpr fun h => ?_
    exact absurd ((hdown 0x2A).mp h).1 (by decide)
  · exact keys_seen.2.1 c events _ hkeys hothers hswitch rfl

/-! ## Keys that end a wait -/

/-- Whether a wait that the press of a key ends leaves the register that waited with a key of the
pad, and with that key down. -/
def ResumesDown (c : Console) (x : Register) (key : UInt8) : Prop :=
  let d := c.press key
  d.awaitsKey = false →
    d.machine.registers.get x ≤ 0xF ∧ d.pad.isDown (d.machine.registers.get x) = true

/-- Whether the press of a byte that is no key of the pad lets the machine wait on. -/
def WaitsOn (c : Console) (key : UInt8) : Prop :=
  0xF < key → (c.press key).awaitsKey = true ∧ (c.press key).machine = c.machine

theorem machine_press_of_awaiting {c : Console} {x : Register} {key : UInt8}
    (h : c.machine.awaiting = some x.number) :
    (c.press key).machine =
      { c.machine with registers := c.machine.registers.set x key, awaiting := none } := by
  rw [press, machine_deliver, Machine.keyed_of_awaiting h, Registers.setNumbered_number]

/-- Whatever key is pressed, it ends the wait, and the register that waited holds it. -/
theorem resumed_press_of_awaiting {c : Console} {x : Register} {key : UInt8}
    (h : c.machine.awaiting = some x.number) :
    (c.press key).awaitsKey = false ∧ (c.press key).machine.registers.get x = key := by
  rw [awaitsKey_eq_false_iff, machine_press_of_awaiting h]
  exact ⟨rfl, (Registers.get_set _ _ _ _).trans (if_pos rfl)⟩

/-- A key that was pressed is down if it is a key of the pad, and only then. -/
theorem isDown_pad_press (c : Console) (key : UInt8) :
    (c.press key).pad.isDown key = true ↔ key ≤ 0xF := by
  rw [HexPad.le_iff_lt_keyCount, pad_press]
  by_cases hk : key.toNat < keyCount
  · rw [HexPad.isDown_press, if_pos ⟨rfl, hk⟩]
    exact iff_of_true rfl hk
  · rw [HexPad.isDown_of_le (Nat.le_of_not_lt hk)]
    exact iff_of_false Bool.false_ne_true hk

/-- A press ends a wait whatever the key is, and the register that waited holds the key. It is a key
of the pad and down if it is at most `F`, and only then: a greater byte ends the wait although the
pad ignores it, and the word that asks for the key in that register does not find it. A session
passes keys on to its console in the same way until it is disposed of. -/
theorem resumes_iff_on_pad (c : Console) (x : Register) (key : UInt8)
    (h : c.machine.awaiting = some x.number) :
    let d := c.press key
    (c.ResumesDown x key ↔ key ≤ 0xF) ∧ (c.WaitsOn key ↔ key ≤ 0xF) ∧
    d.machine = { c.machine with registers := c.machine.registers.set x key, awaiting := none } ∧
    (0xF < key → d.pad = c.pad) ∧
    (∀ w, family w = 0xE → kk w = 0x9E → Word.x w = x →
      (Skips w d.pad d.machine ↔ key ≤ 0xF)) ∧
    ∀ s : Session, s.console = c →
      (s.handle (.keyDown (some key))).session.console = if s.disposed then c else d := by
  intro d
  obtain ⟨hresumed, hregister⟩ : d.awaitsKey = false ∧ d.machine.registers.get x = key :=
    resumed_press_of_awaiting h
  have hdown : d.pad.isDown key = true ↔ key ≤ 0xF := isDown_pad_press c key
  refine ⟨?_, ?_, machine_press_of_awaiting h, ?_, ?_, ?_⟩
  · show (d.awaitsKey = false → d.machine.registers.get x ≤ 0xF ∧
      d.pad.isDown (d.machine.registers.get x) = true) ↔ key ≤ 0xF
    rw [hregister, hdown]
    exact ⟨fun hholds => (hholds hresumed).1, fun hk _ => ⟨hk, hk⟩⟩
  · refine ⟨fun hwaits => UInt8.not_lt.mp fun hlt => ?_, fun hk hlt => ?_⟩
    · have hstill : d.awaitsKey = true := (hwaits hlt).1
      rw [hresumed] at hstill
      cases hstill
    · exact absurd hk (UInt8.not_le.mpr hlt)
  · intro hlt
    exact (pad_press c key).trans (HexPad.press_of_le (Nat.succ_le_of_lt hlt))
  · intro w hw hk hx
    rw [← Machine.skips_iff (.skipPressed hw hk), Instruction.skips, hx, hregister, hdown]
  · rintro s rfl
    cases hs : s.disposed with
    | true => simp [Session.handle, Session.key, hs, Session.ignore]
    | false =>
      rw [Session.handle, Session.key_of_not_disposed hs]
      rfl

/-- A console after a tick whose only word makes `V3` await a key. -/
def waiting : Console := (ofProgram [0xF3, 0x0A] 1).tick.console

theorem awaiting_waiting : waiting.machine.awaiting = some (Register.number 0x3) := by
  have hm : (ofProgram [0xF3, 0x0A] 1).machine.memory =
      Memory.zero.overwrite programStart [0xF3, 0x0A] := rfl
  have hf : (ofProgram [0xF3, 0x0A] 1).machine.fetch = .ok 0xF30A :=
    Machine.fetch_of_image (k := 0) hm rfl (by decide) (by decide)
  have hb : (ofProgram [0xF3, 0x0A] 1).runBatch = .done _ := Machine.batch_of_fetch hf rfl
  rw [waiting, console_tick rfl rfl, hb]
  rfl

/-- The key `7` ends the wait on a session and is down after it. -/
theorem resumes_iff_on_pad_seven :
    let s := Session.start waiting (.every 16)
    let d := (s.handle (.keyDown (some 0x7))).session.console
    waiting.ResumesDown 0x3 0x7 ∧ d = waiting.press 0x7 ∧ Skips 0xE39E d.pad d.machine := by
  intro s d
  obtain ⟨hresumes, -, -, -, hskips, hsession⟩ :=
    resumes_iff_on_pad waiting 0x3 0x7 awaiting_waiting
  have hopen : ¬ s.disposed = true := Bool.false_ne_true
  have hconsole : s.console = waiting := by simp only [s, Session.start]
  have hd : d = waiting.press 0x7 := (hsession s hconsole).trans (if_neg hopen)
  refine ⟨hresumes.mpr (by decide), hd, ?_⟩
  rw [hd]
  exact (hskips 0xE39E (by decide) (by decide) (by decide)).mpr (by decide)

/-- The byte `10` is no key of the pad, and yet it ends the wait. -/
theorem not_resumes_beyond_pad :
    ¬ waiting.ResumesDown 0x3 0x10 ∧ ¬ waiting.WaitsOn 0x10 ∧
      (waiting.press 0x10).awaitsKey = false ∧
      (waiting.press 0x10).machine.registers.get 0x3 = 0x10 ∧
      (waiting.press 0x10).pad.isDown 0x10 = false := by
  obtain ⟨hresumed, hregister⟩ :
      (waiting.press 0x10).awaitsKey = false ∧
        (waiting.press 0x10).machine.registers.get 0x3 = 0x10 :=
    resumed_press_of_awaiting awaiting_waiting
  refine ⟨fun h => ?_, fun h => ?_, hresumed, hregister, HexPad.isDown_of_le (by decide)⟩
  · have hle := (h hresumed).1
    rw [hregister] at hle
    exact absurd hle (by decide)
  · have hstill := (h (by decide)).1
    rw [hresumed] at hstill
    cases hstill

end Console

end ChipEight
