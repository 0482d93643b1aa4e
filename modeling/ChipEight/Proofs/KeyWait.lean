import ChipEight.Proofs.Rest

/-!
# Waiting for a key

`Fx0A` does not stop the batch that it is in. At the end of the batch the register of the latest
`Fx0A` awaits a key, and the console rests until the first key that is put in afterwards.

* `moments_tick_of_done`: a batch without a fault carries out all its words, and the timers run
* `run_of_keyless`: what comes in while a key is awaited, if it is no key, leaves the wait alone
* `key_wait`: the whole course of a wait
-/

namespace ChipEight

/-- A register by its number is the register. -/
theorem Registers.setNumbered_number (r : Registers) (x : Register) (key : UInt8) :
    r.setNumbered x.number key = r.set x key := by
  have hx : x.number.toNat = x.val := by
    have hlt : x.val < 16 := x.isLt
    rw [Register.number, UInt8.toNat_ofNat']
    omega
  refine ext_get fun y => ?_
  rw [get_setNumbered, get_set, hx]
  simp only [Fin.ext_iff]

theorem Machine.received_of_keyless (m : Machine) {events : List Event}
    (h : ∀ event ∈ events, event.key? = none) :
    m.received events = m.copied (events.filterMap Event.image?) := by
  have hk : events.findSome? Event.key? = none := List.findSome?_eq_none_iff.mpr h
  rw [received, hk, keyed_none]

theorem Event.ne_tick_of_key? {event : Event} {key : UInt8} (h : event.key? = some key) :
    event ≠ .tick := by
  rintro rfl
  cases h

namespace Console

variable {c : Console} {x : UInt8} {key : UInt8} {event : Event}

/-! ## The batch in which a wait begins -/

theorem batchMoments_of_done {n : Nat} {m : Machine}
    (h : c.machine.batch c.settings c.pad n = .done m) :
    ∃ words : List Moment,
      batchMoments n c = words ++ [⟨.timers, c.withMachine m, c.finish (.done m)⟩] ∧
      words.length = n ∧ ∀ x ∈ words, ∃ w, x.change = .word w := by
  induction n generalizing c with
  | zero =>
    cases h
    exact ⟨[], rfl, rfl, by simp⟩
  | succ n ih =>
    rw [Machine.batch] at h
    cases hs : c.machine.step c.settings c.pad with
    | halted cause next =>
      rw [hs] at h
      cases h
    | done next =>
      rw [hs] at h
      obtain ⟨w, hf, ho, rfl⟩ := Machine.step_eq_done_iff.mp hs
      let d := c.withMachine (c.machine.after c.settings c.pad w)
      obtain ⟨words, hw, hlen, hall⟩ := ih (c := d) h
      refine ⟨⟨.word w, c, d⟩ :: words, ?_, ?_, ?_⟩
      · rw [batchMoments_succ n hf ho, hw]
        rfl
      · rw [List.length_cons, hlen]
      · rintro x (_ | ⟨_, hx⟩)
        · exact ⟨w, rfl⟩
        · exact hall x hx

theorem runBatch_of_ok (hf : c.fault = none) (hk : c.awaitsKey = false)
    (hr : c.tick.result = .ok ()) : ∃ m, c.runBatch = .done m := by
  rw [tick_of_runs hf hk] at hr
  cases hb : c.runBatch with
  | done m => exact ⟨m, rfl⟩
  | halted cause m =>
    rw [hb] at hr
    cases hr

theorem console_tick_of_done {m : Machine} (hf : c.fault = none) (hk : c.awaitsKey = false)
    (h : c.runBatch = .done m) :
    c.tick.console = c.withMachine { m with toState := m.toState.advanceTimers } := by
  rw [console_tick hf hk, h]
  rfl

theorem moments_tick_of_done {m : Machine} (hf : c.fault = none) (hk : c.awaitsKey = false)
    (h : c.runBatch = .done m) :
    ∃ words : List Moment,
      c.moments .tick = words ++ [⟨.timers, c.withMachine m, c.tick.console⟩] ∧
      words.length = c.settings.instructionsPerTick ∧ ∀ x ∈ words, ∃ w, x.change = .word w := by
  rw [moments_tick_of_runs hf hk, console_tick hf hk, h]
  exact batchMoments_of_done h

/-! ## The course of a wait -/

theorem awaitsKey_of_awaiting (h : c.machine.awaiting = some x) : c.awaitsKey = true := by
  simp [awaitsKey, h]

theorem run_of_keyless {events : List Event} (hf : c.fault = none)
    (ha : c.machine.awaiting = some x) (h : ∀ event ∈ events, event.key? = none) :
    (c.run events).fault = none ∧
      (c.run events).machine = c.machine.copied (events.filterMap Event.image?) := by
  induction events generalizing c with
  | nil => exact ⟨hf, rfl⟩
  | cons event rest ih =>
    have hr : c.rests = true := rests_of_awaiting ha
    have hm : (c.handle event).console.machine =
        c.machine.copied ([event].filterMap Event.image?) := by
      rw [machine_handle_of_rests hr]
      refine Machine.received_of_keyless _ fun e he => ?_
      obtain rfl := List.mem_singleton.mp he
      exact h e List.mem_cons_self
    have hn : (c.handle event).console.fault = none := by
      by_cases ht : event = .tick
      · subst ht
        show c.tick.console.fault = none
        rw [console_tick_of_rests hr, hf]
      · rw [fault_handle ht, hf]
    -- images go to memory only, so the wait goes on
    have hw : (c.handle event).console.machine.awaiting = some x := by
      rw [hm]
      exact ha
    obtain ⟨hfault, hmachine⟩ := ih hn hw fun e he => h e (List.mem_cons_of_mem _ he)
    refine ⟨hfault, hmachine.trans ?_⟩
    rw [hm, Machine.copied_copied, ← List.filterMap_append, List.singleton_append]

theorem machine_handle_of_key (h : event.key? = some key) (c : Console) :
    (c.handle event).console.machine = c.machine.keyed (some key) := by
  have hi : event.image? = none := by
    cases event with
    | press | deliver => rfl
    | _ => cases h
  rw [machine_handle (Event.ne_tick_of_key? h), Machine.received]
  simp [h, hi]

/-- Once nothing is awaited, keys change no part of the machine before the next `Fx0A`. -/
theorem machine_handle_of_no_wait {later : List Event} (ha : c.machine.awaiting = none)
    (hw : waits (c.history later) = []) (h : event.key? = some key) :
    ((c.run later).handle event).console.machine = (c.run later).machine := by
  have hn : (c.run later).machine.awaiting = none :=
    (path_history c later).awaiting_eq_none ha hw
  rw [machine_handle_of_key h, Machine.keyed_of_not_awaiting hn]

/-- A batch without a fault is carried out whole whatever it awaits, then each timer loses one and
stops at 0, and the register of its latest `Fx0A` awaits a key. Until one is put in, the machine
stays as it is but for images, and ticks succeed and signal the tone and the frame. The first key
goes to the register and ends the wait, and further keys change nothing before the next `Fx0A`.
Keys that were put in before the wait have no part in it. -/
theorem key_wait (c : Console) (hf : c.fault = none) :
    (c.awaitsKey = false → c.tick.result = .ok () →
      ∃ (words : List Moment) (m : Machine),
        c.runBatch = .done m ∧
        c.moments .tick = words ++ [⟨.timers, c.withMachine m, c.tick.console⟩] ∧
        words.length = c.settings.instructionsPerTick ∧
        (∀ x ∈ words, ∃ w, x.change = .word w) ∧
        c.tick.console = c.withMachine { m with toState := m.toState.advanceTimers } ∧
        c.tick.console.machine.delay.toNat = m.delay.toNat - 1 ∧
        c.tick.console.machine.sound.toNat = m.sound.toNat - 1 ∧
        c.tick.console.machine.awaiting =
          (waits (c.moments .tick)).getLast?.map Register.number) ∧
    (∀ x : Register, c.machine.awaiting = some x.number →
      ∀ waiting : List Event, (∀ event ∈ waiting, event.key? = none) →
        let d := c.run waiting
        d.fault = none ∧
        d.machine = c.machine.copied (waiting.filterMap Event.image?) ∧
        d.tick = ⟨.ok (), d,
          [if 0 < d.machine.sound then .toneOn d.settings.toneFrequency else .toneOff,
            .picture d.machine.frame]⟩ ∧
        ∀ event key, event.key? = some key →
          let resumed := (d.handle event).console
          resumed.machine =
            { d.machine with registers := d.machine.registers.set x key, awaiting := none } ∧
          ∀ later : List Event, waits (resumed.history later) = [] →
            ∀ event key, event.key? = some key →
              ((resumed.run later).handle event).console.machine =
                (resumed.run later).machine) ∧
    ∀ before : List Event,
      let ready := c.run before
      ready.fault = none → ready.awaitsKey = false → ready.tick.result = .ok () →
      ∀ x, (waits (ready.moments .tick)).getLast? = some x →
      ∀ waiting : List Event, (∀ event ∈ waiting, event.key? = none) →
        (ready.tick.console.run waiting).machine.awaiting = some x.number := by
  refine ⟨?_, ?_, ?_⟩
  · intro hk hr
    obtain ⟨m, hb⟩ := runBatch_of_ok hf hk hr
    obtain ⟨words, hw, hlen, hall⟩ := moments_tick_of_done hf hk hb
    have hc := console_tick_of_done hf hk hb
    refine ⟨words, m, hb, hw, hlen, hall, hc, ?_, ?_, awaiting_tick hf hk⟩
    · rw [hc]
      exact State.toNat_countDown m.delay
    · rw [hc]
      exact State.toNat_countDown m.sound
  · intro x ha waiting hkeyless d
    obtain ⟨hd, hm⟩ := run_of_keyless hf ha hkeyless
    have hda : d.machine.awaiting = some x.number := by
      rw [hm]
      exact ha
    refine ⟨hd, hm, tick_of_awaitsKey hd (awaitsKey_of_awaiting hda), ?_⟩
    intro event key hkey resumed
    have hr : resumed.machine = d.machine.keyed (some key) := machine_handle_of_key hkey d
    constructor
    · rw [hr, Machine.keyed_of_awaiting hda, Registers.setNumbered_number]
    · intro later hw event key hkey
      have hn : resumed.machine.awaiting = none := by rw [hr, Machine.awaiting_keyed]
      exact machine_handle_of_no_wait hn hw hkey
  · intro before ready hready hk hr x hx waiting hkeyless
    have ha : ready.tick.console.machine.awaiting = some x.number := by
      rw [awaiting_tick hready hk, hx]
      rfl
    have hn : ready.tick.console.fault = none := by
      obtain ⟨m, hb⟩ := runBatch_of_ok hready hk hr
      rw [console_tick_of_done hready hk hb]
      exact hready
    rw [(run_of_keyless hn ha hkeyless).2]
    exact ha

/-- A batch sets the delay timer to 2 and makes `V3` and then `V5` await a key, with `C` down
already. The sound timer is at 0 and stays there. -/
theorem key_wait_latest :
    let ready := (ofProgram [0x63, 0x02, 0xF3, 0x15, 0xF3, 0x0A, 0xF5, 0x0A] 4).run [.press 0xC]
    let waiting := ready.tick.console
    let d := waiting.run [.tick, .release 0xC, .load [0x12, 0x00]]
    let resumed := (d.handle (.press 0x7)).console
    ready.tick.result = .ok () ∧
      waiting.machine.delay.toNat = 1 ∧ waiting.machine.sound.toNat = 0 ∧
      waiting.machine.awaiting = some 0x5 ∧ d.machine.awaiting = some 0x5 ∧
      resumed.machine.registers.get 0x5 = 0x7 ∧
      ((resumed.run [.release 0x7]).handle (.deliver 0x9)).console.machine =
        (resumed.run [.release 0x7]).machine := by
  intro ready waiting d resumed
  let m := ready.machine
  let loaded := m.after ready.settings ready.pad 0x6302
  let timed := loaded.after ready.settings ready.pad 0xF315
  let next := timed.after ready.settings ready.pad 0xF30A
  let last := next.after ready.settings ready.pad 0xF50A
  have hm : m.memory = Memory.zero.overwrite programStart
      [0x63, 0x02, 0xF3, 0x15, 0xF3, 0x0A, 0xF5, 0x0A] := rfl
  have hf : m.fetch = .ok 0x6302 := Machine.fetch_of_image (k := 0) hm rfl (by decide) (by decide)
  have hm : loaded.memory = _ := (Machine.memory_after (i := .load 0x3 0x02) rfl).trans hm
  have hf₁ : loaded.fetch = .ok 0xF315 :=
    Machine.fetch_of_image (k := 2) hm rfl (by decide) (by decide)
  have hm : timed.memory = _ := (Machine.memory_after (i := .setDelay 0x3) rfl).trans hm
  have hf₂ : timed.fetch = .ok 0xF30A :=
    Machine.fetch_of_image (k := 4) hm rfl (by decide) (by decide)
  have hm : next.memory = _ := (Machine.memory_after (i := .awaitKey 0x3) rfl).trans hm
  have hf₃ : next.fetch = .ok 0xF50A :=
    Machine.fetch_of_image (k := 6) hm rfl (by decide) (by decide)
  have hb : ready.runBatch = .done last := by
    show m.batch ready.settings ready.pad (0 + 1 + 1 + 1 + 1) = _
    rw [Machine.batch_of_fetch hf rfl, Machine.batch_of_fetch hf₁ rfl,
      Machine.batch_of_fetch hf₂ rfl, Machine.batch_of_fetch hf₃ rfl]
    rfl
  have hr : ready.tick.result = .ok () := by rw [tick_of_runs rfl rfl, hb]
  have h₁ : ready.moments .tick = ⟨.word 0x6302, ready, ready.withMachine loaded⟩ ::
      batchMoments 3 (ready.withMachine loaded) := batchMoments_succ 3 hf rfl
  have h₂ : batchMoments 3 (ready.withMachine loaded) =
      ⟨.word 0xF315, ready.withMachine loaded, ready.withMachine timed⟩ ::
        batchMoments 2 (ready.withMachine timed) := batchMoments_succ 2 hf₁ rfl
  have h₃ : batchMoments 2 (ready.withMachine timed) =
      ⟨.word 0xF30A, ready.withMachine timed, ready.withMachine next⟩ ::
        batchMoments 1 (ready.withMachine next) := batchMoments_succ 1 hf₂ rfl
  have h₄ : batchMoments 1 (ready.withMachine next) =
      ⟨.word 0xF50A, ready.withMachine next, ready.withMachine last⟩ ::
        batchMoments 0 (ready.withMachine last) := batchMoments_succ 0 hf₃ rfl
  have hw : (waits (ready.moments .tick)).getLast? = some 0x5 := by
    rw [h₁, h₂, h₃, h₄]
    rfl
  obtain ⟨-, done, hdone, -, -, -, -, hdelay, hsound, ha⟩ := (key_wait ready rfl).1 rfl hr
  -- the batch ends with the delay timer at 2, and then the timers run
  have hlast : done = last := by
    rw [hb] at hdone
    cases hdone
    rfl
  have hdelay : waiting.machine.delay.toNat = 1 := hdelay.trans (by rw [hlast]; rfl)
  have hsound : waiting.machine.sound.toNat = 0 := hsound.trans (by rw [hlast]; rfl)
  have ha : waiting.machine.awaiting = some (Register.number 0x5) := by
    rw [ha, hw]
    rfl
  have hquiet : ∀ event ∈ [.tick, .release 0xC, .load [0x12, 0x00]], Event.key? event = none := by
    simp [Event.key?]
  obtain ⟨-, -, hbefore⟩ :=
    key_wait (ofProgram [0x63, 0x02, 0xF3, 0x15, 0xF3, 0x0A, 0xF5, 0x0A] 4) rfl
  have hawaits := hbefore [.press 0xC] rfl rfl hr 0x5 hw
    [.tick, .release 0xC, .load [0x12, 0x00]] hquiet
  have hd : d.machine.awaiting = some (Register.number 0x5) := by
    unfold d waiting ready
    exact hawaits
  have hn : waiting.fault = none := by
    show ready.tick.console.fault = none
    rw [console_tick_of_done rfl rfl hb]
    rfl
  obtain ⟨-, -, -, hkey⟩ := (key_wait waiting hn).2.1 0x5 ha
    [.tick, .release 0xC, .load [0x12, 0x00]] hquiet
  obtain ⟨hresumed, hlater⟩ := hkey (.press 0x7) 0x7 rfl
  refine ⟨hr, hdelay, hsound, ha, hd, ?_, hlater [.release 0x7] rfl (.deliver 0x9) 0x9 rfl⟩
  rw [hresumed]
  exact (Registers.get_set _ _ _ _).trans (if_pos rfl)

end Console

end ChipEight
