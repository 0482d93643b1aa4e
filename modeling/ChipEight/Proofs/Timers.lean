import ChipEight.Proofs.FaultLatch
import ChipEight.Proofs.KeyWait

/-!
# Timers count ticks

Both timers run at the end of every batch that no fault cuts short. So they count the ticks that
succeed and that began with no key awaited: the beats. Only `Fx15` and `Fx18` interfere with that.
The sound timer, in turn, decides on the tone that a beat signals, and a tick that is spent waiting
for a key signals what was signalled before it.

* `Path.timer_eq`: along changes that do not set it, a timer loses one whenever the timers run
* `timer_run`: without a word that sets it, a timer loses one with each beat
* `tones_beats`: the beats sound the tone until the sound timer is out, and then end it
* `tones_of_pause`: a tick that waits repeats the tone signal before it
* `timers_count_beats`: the same over runs
-/

namespace ChipEight

/-! ## The timers and what changes them -/

/-- The timers of a machine. -/
inductive Timer where
  | delay
  | sound

namespace Timer

/-- What a timer stands at. -/
def read : Timer → Machine → UInt8
  | .delay, m => m.delay
  | .sound, m => m.sound

/-- The column of a timer in the table of effects. -/
def column : Timer → Machine → Instruction → UInt8
  | .delay, m, i => i.delayAfter m
  | .sound, m, i => i.soundAfter m

/-- The last digits of the words that set a timer. -/
def code : Timer → UInt8
  | .delay => 0x15
  | .sound => 0x18

/-- Whether a word sets a timer: `Fx15` sets the delay timer and `Fx18` the sound timer. -/
def isSetBy (t : Timer) (w : UInt16) : Bool := (Word.family w).val = 0xF ∧ Word.kk w = t.code

end Timer

/-- Whether a word of this moment set a timer. -/
def Moment.sets (t : Timer) (x : Moment) : Bool :=
  match x.change with
  | .word w => t.isSetBy w
  | _ => false

/-- Whether the timers ran at this moment. -/
def Moment.isCount (x : Moment) : Bool :=
  match x.change with
  | .timers => true
  | _ => false

/-- Whether a signal concerns the tone. -/
def Signal.isTone : Signal → Bool
  | .toneOn _ | .toneOff => true
  | .gain _ | .picture _ => false

/-- The tone signals of a reply. -/
def Reply.tones (reply : Reply) : List Signal := reply.signals.filter Signal.isTone

namespace Console

/-- Whether an event is a beat: a tick that succeeds and began with no key awaited. -/
def isBeat (c : Console) : Event → Bool
  | .tick => !c.awaitsKey && c.tick.result.isOk
  | _ => false

/-- The replies to the beats among events, in order. -/
def beats (c : Console) : List Event → List Reply
  | [] => []
  | event :: rest =>
    (if c.isBeat event then [c.handle event] else []) ++ (c.handle event).console.beats rest

end Console

/-- The tone signals of `n` beats when the sound timer stood at `timer` before it ran in the first
of them. The tone sounds while there is something left on the timer. -/
def beeps (frequency : UInt32) (timer n : Nat) : List (List Signal) :=
  List.replicate (min (timer - 1) n) [.toneOn frequency] ++
    List.replicate (n - min (timer - 1) n) [.toneOff]

theorem Timer.isSetBy_iff {t : Timer} {w : UInt16} :
    t.isSetBy w = true ↔ (Word.family w).val = 0xF ∧ Word.kk w = t.code :=
  decide_eq_true_iff

/-- A word that sets a timer sets it to `Vx`, and no other word changes it. -/
theorem Timer.read_after (t : Timer) (settings : Settings) (pad : HexPad) (m : Machine)
    (w : UInt16) :
    t.read (m.after settings pad w) =
      if t.isSetBy w then m.registers.get (Word.x w) else t.read m := by
  have hcolumn : t.read (m.after settings pad w) = t.column m.past (Instruction.ofWord w) := by
    cases t <;> rfl
  rw [hcolumn]
  by_cases h : t.isSetBy w = true
  · obtain ⟨hf, hk⟩ := isSetBy_iff.mp h
    rw [if_pos h]
    cases t with
    | delay =>
      rw [Instruction.ofWord_eq_of_spells (.setDelay (Fin.ext hf) hk)]
      rfl
    | sound =>
      rw [Instruction.ofWord_eq_of_spells (.setSound (Fin.ext hf) hk)]
      rfl
  · rw [if_neg h]
    have hs := Instruction.spells_ofWord w
    generalize Instruction.ofWord w = i at hs
    cases t with
    | delay =>
      cases hs with
      | setDelay hf hk => exact absurd (decide_eq_true ⟨congrArg Fin.val hf, hk⟩) h
      | _ => rfl
    | sound =>
      cases hs with
      | setSound hf hk => exact absurd (decide_eq_true ⟨congrArg Fin.val hf, hk⟩) h
      | _ => rfl

theorem Timer.read_touched (t : Timer) {m m' : Machine} (h : Console.Touched m m') :
    t.read m' = t.read m := by
  cases h <;> cases t <;> rfl

namespace Console

variable {c d : Console} {event : Event} {events : List Event} {xs : List Moment} {t : Timer}

/-- A change that does not set a timer takes one from it or leaves it as it is. -/
theorem Moves.timer_eq {change : Change} (hm : c.Moves change d)
    (h : Moment.sets t ⟨change, c, d⟩ = false) :
    (t.read d.machine).toNat =
      (t.read c.machine).toNat - if Moment.isCount ⟨change, c, d⟩ then 1 else 0 := by
  cases hm with
  | @word w m hf hp =>
    obtain ⟨-, rfl⟩ := Machine.perform_eq_done_iff.mp hp
    have hset : t.isSetBy w = false := h
    show (t.read (c.machine.after c.settings c.pad w)).toNat = _
    rw [Timer.read_after, hset]
    rfl
  | @halt cause m hs =>
    rw [Machine.eq_of_step_halted hs]
    cases t <;> rfl
  | timers => cases t <;> exact State.toNat_countDown _
  | host he =>
    rw [t.read_touched (touched_handle he)]
    rfl

theorem Moves.read_of_sets {w : UInt16} (hm : c.Moves (.word w) d) (hw : t.isSetBy w = true) :
    t.read d.machine = c.machine.registers.get (Word.x w) := by
  obtain ⟨-, -, rfl⟩ := hm.of_word
  exact (t.read_after c.settings c.pad c.machine w).trans (if_pos hw)

/-- Along changes that do not set it, a timer loses one whenever the timers run. -/
theorem Path.timer_eq (hp : Path c xs d) (h : ∀ x ∈ xs, x.sets t = false) :
    (t.read d.machine).toNat = (t.read c.machine).toNat - xs.countP Moment.isCount := by
  induction hp with
  | nil => rfl
  | @cons c next d change rest hm _ ih =>
    rw [ih fun x hx => h x (List.mem_cons_of_mem _ hx), hm.timer_eq (h _ List.mem_cons_self),
      Nat.sub_sub, List.countP_cons, Nat.add_comm]

/-! ## Beats -/

theorem isBeat_tick_iff :
    c.isBeat .tick = true ↔ c.awaitsKey = false ∧ c.tick.result = .ok () := by
  show (!c.awaitsKey && c.tick.result.isOk) = true ↔ _
  rw [Bool.and_eq_true, Bool.not_eq_true']
  refine and_congr_right fun _ => ?_
  cases c.tick.result with
  | ok => exact ⟨fun _ => rfl, fun _ => rfl⟩
  | error cause => exact ⟨nofun, nofun⟩

theorem eq_tick_of_isBeat (h : c.isBeat event = true) : event = .tick := by
  cases event with
  | tick => rfl
  | load | loadFrom | press | release | deliver | volume => cases h

theorem fault_eq_none_of_ok (h : c.tick.result = .ok ()) : c.fault = none := by
  cases hf : c.fault with
  | none => rfl
  | some cause =>
    rw [tick_of_fault hf] at h
    cases h

/-- A tick that succeeds and in which something happens is a beat. -/
theorem isBeat_of_mem_moments {x : Moment} (h : x ∈ c.moments .tick)
    (hr : c.tick.result = .ok ()) : c.isBeat .tick = true := by
  refine isBeat_tick_iff.mpr ⟨?_, hr⟩
  cases hk : c.awaitsKey with
  | false => rfl
  | true =>
    rw [moments_tick_of_rests (rests_of_awaitsKey hk)] at h
    cases h

theorem beats_of_isBeat (h : c.isBeat .tick = true) (rest : List Event) :
    c.beats (.tick :: rest) = c.tick :: c.tick.console.beats rest := by
  rw [beats, h]
  rfl

/-- The timers run at the end of a batch that no fault cuts short. -/
theorem countP_isCount_batchMoments (n : Nat) (c : Console) :
    (batchMoments n c).countP Moment.isCount =
      match c.machine.batch c.settings c.pad n with
      | .done _ => 1
      | .halted _ _ => 0 := by
  induction n generalizing c with
  | zero => rfl
  | succ n ih =>
    rw [Machine.batch]
    cases hs : c.machine.step c.settings c.pad with
    | halted cause m =>
      rcases Machine.step_eq_halted_iff.mp hs with ⟨hf, rfl⟩ | ⟨w, hf, ho, rfl⟩
      · simp only [batchMoments, hf]
        rfl
      · rw [batchMoments_of_obstacle n hf ho]
        rfl
    | done m =>
      obtain ⟨w, hf, ho, rfl⟩ := Machine.step_eq_done_iff.mp hs
      rw [batchMoments_succ n hf ho, List.countP_cons, ih]
      rfl

theorem countP_isCount_moments (c : Console) (event : Event) :
    (c.moments event).countP Moment.isCount = if c.isBeat event then 1 else 0 := by
  cases event with
  | tick =>
    cases hf : c.fault with
    | some cause =>
      rw [moments_tick_of_rests (rests_of_fault hf), isBeat, tick_of_fault hf]
      simp [Except.isOk, Except.toBool]
    | none =>
      cases hk : c.awaitsKey with
      | true =>
        rw [moments_tick_of_rests (rests_of_awaitsKey hk), isBeat, hk]
        rfl
      | false =>
        rw [moments_tick_of_runs hf hk, countP_isCount_batchMoments, isBeat, hk,
          tick_of_runs hf hk, runBatch]
        cases c.machine.batch c.settings c.pad c.settings.instructionsPerTick <;> rfl
  | load | loadFrom | press | release | deliver | volume => rfl

/-- A timer that an event does not set loses one if the event is a beat. -/
theorem timer_handle (h : ∀ x ∈ c.moments event, x.sets t = false) :
    (t.read (c.handle event).console.machine).toNat =
      (t.read c.machine).toNat - if c.isBeat event then 1 else 0 := by
  rw [(path_moments c event).timer_eq h, countP_isCount_moments]

/-- Without a word that sets it, a timer loses one with each beat. -/
theorem timer_run (h : ∀ x ∈ c.history events, x.sets t = false) :
    (t.read (c.run events).machine).toNat =
      (t.read c.machine).toNat - (c.beats events).length := by
  induction events generalizing c with
  | nil => rfl
  | cons event rest ih =>
    have hfirst := timer_handle fun x hx => h x (List.mem_append_left _ hx)
    have hrest := ih fun x hx => h x (List.mem_append_right _ hx)
    rw [beats, List.length_append]
    show (t.read ((c.handle event).console.run rest).machine).toNat = _
    rw [hrest, hfirst, Nat.sub_sub]
    cases c.isBeat event <;> rfl

/-- After any word of a beat, the timers still run once. -/
theorem countP_isCount_of_word {xs ys : List Moment} {x : Moment} {w : UInt16}
    (hb : c.isBeat .tick = true) (hm : c.moments .tick = xs ++ x :: ys)
    (hx : x.change = .word w) : ys.countP Moment.isCount = 1 := by
  obtain ⟨hk, hr⟩ := isBeat_tick_iff.mp hb
  have hf := fault_eq_none_of_ok hr
  obtain ⟨m, hdone⟩ := runBatch_of_ok hf hk hr
  obtain ⟨words, hwords, -, hall⟩ := moments_tick_of_done hf hk hdone
  rw [hm] at hwords
  -- the timers are the last moment, so they are not `x` but the end of what follows it
  rcases List.eq_nil_or_concat ys with rfl | ⟨ys, y, rfl⟩
  · obtain ⟨-, hlast⟩ := List.append_inj' hwords rfl
    obtain ⟨rfl, -⟩ := List.cons.inj hlast
    cases hx
  · rw [List.concat_eq_append, ← List.cons_append, ← List.append_assoc] at hwords
    obtain ⟨rfl, hlast⟩ := List.append_inj' hwords rfl
    obtain ⟨rfl, -⟩ := List.cons.inj hlast
    have hzero : ys.countP Moment.isCount = 0 := by
      refine List.countP_eq_zero.mpr fun y hy => ?_
      obtain ⟨v, hv⟩ := hall y (List.mem_append_right _ (List.mem_cons_of_mem _ hy))
      rw [Moment.isCount, hv]
      exact Bool.false_ne_true
    rw [List.concat_eq_append, List.countP_append, hzero]
    rfl

/-- The timers run once more after the last word of a beat that sets one of them. -/
theorem timer_tick_of_sets {xs ys : List Moment} {x : Moment} {w : UInt16}
    (hb : c.isBeat .tick = true) (hm : c.moments .tick = xs ++ x :: ys) (hx : x.change = .word w)
    (hw : t.isSetBy w = true) (hy : ∀ y ∈ ys, y.sets t = false) :
    (t.read c.tick.console.machine).toNat =
      (x.before.machine.registers.get (Word.x w)).toNat - 1 := by
  have hpath : Path c (xs ++ x :: ys) c.tick.console := hm ▸ path_moments c .tick
  obtain ⟨-, hmove, hrest⟩ := hpath.split
  rw [hx] at hmove
  rw [hrest.timer_eq hy, hmove.read_of_sets hw, countP_isCount_of_word hb hm hx]

/-! ## Tones -/

/-- The tone signal of a tick that leaves the sound timer at `timer`. -/
def tone (frequency : UInt32) (timer : Nat) : Signal :=
  if 0 < timer then .toneOn frequency else .toneOff

theorem tones_tick (h : c.tick.result = .ok ()) :
    c.tick.tones = [tone c.settings.toneFrequency c.tick.console.machine.sound.toNat] := by
  have houtput : ∀ d : Console, d.output.filter Signal.isTone =
      [tone d.settings.toneFrequency d.machine.sound.toNat] := by
    intro d
    unfold output tone
    simp only [UInt8.lt_iff_toNat_lt, UInt8.toNat_zero]
    split <;> rfl
  have hf := fault_eq_none_of_ok h
  have hs : c.tick.signals = c.tick.console.output := by
    cases hk : c.awaitsKey with
    | true => rw [tick_of_awaitsKey hf hk]
    | false =>
      obtain ⟨m, hb⟩ := runBatch_of_ok hf hk h
      rw [tick_of_runs hf hk, hb]
  have hsettings : c.tick.console.settings = c.settings := settings_handle c .tick
  rw [Reply.tones, hs, houtput, hsettings]

theorem beeps_succ (frequency : UInt32) (timer n : Nat) :
    beeps frequency timer (n + 1) =
      [tone frequency (timer - 1)] :: beeps frequency (timer - 1) n := by
  unfold beeps tone
  by_cases h : 0 < timer - 1
  · have hmin : min (timer - 1) (n + 1) = min (timer - 1 - 1) n + 1 := by omega
    rw [if_pos h, hmin, List.replicate_succ, List.cons_append, Nat.add_sub_add_right]
  · have hzero : timer - 1 = 0 := by omega
    rw [if_neg h, hzero]
    simp [List.replicate_succ]

/-- The beats sound the tone until the sound timer is out, and then end it. -/
theorem tones_beats (h : ∀ x ∈ c.history events, x.sets .sound = false) :
    (c.beats events).map Reply.tones =
      beeps c.settings.toneFrequency c.machine.sound.toNat (c.beats events).length := by
  induction events generalizing c with
  | nil => simp [beats, beeps]
  | cons event rest ih =>
    have hfirst : (c.handle event).console.machine.sound.toNat =
        c.machine.sound.toNat - if c.isBeat event then 1 else 0 :=
      timer_handle (t := .sound) fun x hx => h x (List.mem_append_left _ hx)
    have hrest := ih fun x hx => h x (List.mem_append_right _ hx)
    rw [settings_handle, hfirst] at hrest
    cases hb : c.isBeat event with
    | false =>
      rw [beats, hb]
      rw [hb] at hrest
      exact hrest
    | true =>
      obtain rfl := eq_tick_of_isBeat hb
      obtain ⟨-, hr⟩ := isBeat_tick_iff.mp hb
      rw [hb] at hfirst hrest
      have hsound : c.tick.console.machine.sound.toNat = c.machine.sound.toNat - 1 := hfirst
      rw [beats_of_isBeat hb, List.map_cons, List.length_cons, beeps_succ, tones_tick hr, hsound]
      exact congrArg _ hrest

/-- The same from the beat on in which the sound timer is set. -/
theorem tones_of_sets {xs ys : List Moment} {x : Moment} {w : UInt16}
    (hb : c.isBeat .tick = true) (hm : c.moments .tick = xs ++ x :: ys)
    (hx : x.change = .word w) (hw : Timer.sound.isSetBy w = true)
    (hy : ∀ y ∈ ys, y.sets .sound = false)
    (hlater : ∀ y ∈ c.tick.console.history events, y.sets .sound = false) :
    (c.beats (.tick :: events)).map Reply.tones =
      beeps c.settings.toneFrequency (x.before.machine.registers.get (Word.x w)).toNat
        (c.beats (.tick :: events)).length := by
  obtain ⟨-, hr⟩ := isBeat_tick_iff.mp hb
  have hsound : c.tick.console.machine.sound.toNat =
      (x.before.machine.registers.get (Word.x w)).toNat - 1 := timer_tick_of_sets hb hm hx hw hy
  have hsettings : c.tick.console.settings = c.settings := settings_handle c .tick
  have hrest := tones_beats hlater
  rw [hsound, hsettings] at hrest
  rw [beats_of_isBeat hb, List.map_cons, List.length_cons, beeps_succ, tones_tick hr, hsound, hrest]

/-! ## Waiting -/

/-- An event that is no beat and brings no fault sets no timer. -/
theorem read_handle_of_not_isBeat (hb : c.isBeat event = false)
    (hf : (c.handle event).console.fault = none) (t : Timer) :
    t.read (c.handle event).console.machine = t.read c.machine := by
  by_cases he : event = .tick
  · subst he
    cases hr : c.tick.result with
    | error cause => cases hf.symm.trans (fault_tick hr)
    | ok =>
      have hk : c.awaitsKey = true := by
        cases hk : c.awaitsKey with
        | true => rfl
        | false => cases hb.symm.trans (isBeat_tick_iff.mpr ⟨hk, hr⟩)
      have hstays : c.tick.console = c := console_tick_of_rests (rests_of_awaitsKey hk)
      show t.read c.tick.console.machine = _
      rw [hstays]
  · exact t.read_touched (touched_handle he)

theorem read_run_of_no_beats (hb : c.beats events = []) (hf : (c.run events).fault = none)
    (t : Timer) : t.read (c.run events).machine = t.read c.machine := by
  induction events generalizing c with
  | nil => rfl
  | cons event rest ih =>
    rw [beats, List.append_eq_nil_iff] at hb
    obtain ⟨hfirst, hrest⟩ := hb
    have hfault : (c.handle event).console.fault = none := by
      cases h : (c.handle event).console.fault with
      | none => rfl
      | some cause => cases hf.symm.trans (fault_run h rest)
    have hbeat : c.isBeat event = false := by
      cases h : c.isBeat event with
      | false => rfl
      | true => simp [h] at hfirst
    exact (ih hrest hf).trans (read_handle_of_not_isBeat hbeat hfault t)

/-- A tick that waits repeats the tone signal before it. -/
theorem tones_of_pause {between : List Event} (hr : c.tick.result = .ok ())
    (hb : c.tick.console.beats between = [])
    (hr' : (c.tick.console.run between).tick.result = .ok ())
    (hk : (c.tick.console.run between).awaitsKey = true) :
    (c.tick.console.run between).tick.tones = c.tick.tones := by
  have hf := fault_eq_none_of_ok hr'
  have hsound : (c.tick.console.run between).machine.sound = c.tick.console.machine.sound :=
    read_run_of_no_beats hb hf .sound
  have hsettings : (c.tick.console.run between).settings = c.settings :=
    (settings_run _ between).trans (settings_handle c .tick)
  have hstays : (c.tick.console.run between).tick.console = c.tick.console.run between :=
    console_tick_of_rests (rests_of_awaitsKey hk)
  rw [tones_tick hr', tones_tick hr, hstays, hsound, hsettings]

/-! ## Runs -/

/-- The timers count beats. Over events during which no word sets a timer, the timer loses one with
each beat and stops at 0. So if the last word that sets the sound timer, to `Vx`, is carried out in
a tick that succeeds, then that tick and the beats after it signal one tone each: the first of them
sound it, as many as one less than `Vx`, and all others end it. A tick that is spent waiting for a
key signals the tone of the latest tick before it that succeeded. -/
theorem timers_count_beats (c : Console) (events : List Event) :
    (∀ t : Timer, (∀ x ∈ c.history events, x.sets t = false) →
      (t.read (c.run events).machine).toNat =
        (t.read c.machine).toNat - (c.beats events).length) ∧
    (∀ xs x ys w, c.history events = xs ++ x :: ys → x.change = .word w →
      Timer.sound.isSetBy w = true → (∀ y ∈ ys, y.sets .sound = false) →
      ∃ before after zs ws, events = before ++ .tick :: after ∧ xs = c.history before ++ zs ∧
        (c.run before).moments .tick = zs ++ x :: ws ∧
        ((c.run before).tick.result = .ok () →
          let value := (x.before.machine.registers.get (Word.x w)).toNat
          let replies := (c.run before).beats (.tick :: after)
          let starts := min (value - 1) replies.length
          replies.head? = some (c.run before).tick ∧
          replies.map Reply.tones =
            List.replicate starts [.toneOn c.settings.toneFrequency] ++
              List.replicate (replies.length - starts) [.toneOff])) ∧
    ∀ before between : List Event,
      let latest := (c.run before).tick
      let waiting := latest.console.run between
      latest.result = .ok () → latest.console.beats between = [] →
      waiting.awaitsKey = true → waiting.tick.result = .ok () →
      waiting.tick.tones = latest.tones := by
  refine ⟨fun t => timer_run, ?_, ?_⟩
  · intro xs x ys w hhistory hx hw hy
    obtain ⟨before, event, after, zs, ws, rfl, rfl, hm⟩ := history_split hhistory
    obtain rfl : event = .tick := eq_tick_of_word (hm ▸ List.mem_append_cons_self) hx
    refine ⟨before, after, zs, ws, rfl, rfl, hm, ?_⟩
    intro hr value replies starts
    -- what follows the word is the rest of its tick and all that comes later
    have hys : ys = ws ++ (c.run before).tick.console.history after := by
      rw [history_append, history, handle, hm, List.append_assoc, List.append_assoc] at hhistory
      exact (List.cons.inj (List.append_cancel_left (List.append_cancel_left hhistory))).2.symm
    rw [hys] at hy
    have hb : (c.run before).isBeat .tick = true :=
      isBeat_of_mem_moments (hm ▸ List.mem_append_cons_self) hr
    have htones := tones_of_sets hb hm hx hw (fun y h => hy y (List.mem_append_left _ h))
      fun y h => hy y (List.mem_append_right _ h)
    rw [settings_run] at htones
    refine ⟨?_, htones⟩
    unfold replies
    rw [beats_of_isBeat hb]
    rfl
  · intro before between latest waiting hr hb hk hr'
    exact tones_of_pause hr hb hr' hk

/-- A program that sets the sound timer to 2 and then waits for a key, one word in each tick. -/
theorem timers_count_beats_wait :
    let p := ofProgram [0xF0, 0x18, 0xF1, 0x0A] 1
    let c : Console := { p with
      machine := { p.machine with registers := p.machine.registers.set 0x0 2, delay := 9 } }
    let events : List Event := [.tick, .tick, .tick]
    (∀ x ∈ c.history events, x.sets .delay = false) ∧
      (c.run events).machine.delay.toNat = 7 ∧
      (c.beats events).map Reply.tones = [[.toneOn c.settings.toneFrequency], [.toneOff]] ∧
      (c.run [.tick, .tick]).awaitsKey = true ∧
      (c.run [.tick, .tick]).tick.tones = (c.run [.tick]).tick.tones := by
  intro p c events
  let next := c.machine.after c.settings c.pad 0xF018
  let d := c.finish (.done next)
  let last := d.machine.after d.settings d.pad 0xF10A
  let e := d.finish (.done last)
  have hm : c.machine.memory = Memory.zero.overwrite programStart [0xF0, 0x18, 0xF1, 0x0A] := rfl
  have hf : c.machine.fetch = .ok 0xF018 :=
    Machine.fetch_of_image (k := 0) hm rfl (by decide) (by decide)
  have hm' : next.memory = c.machine.memory := Machine.memory_after (i := .setSound 0x0) rfl
  have hstill : d.machine.memory = Memory.zero.overwrite programStart [0xF0, 0x18, 0xF1, 0x0A] :=
    hm'.trans hm
  have hf' : d.machine.fetch = .ok 0xF10A :=
    Machine.fetch_of_image (k := 2) hstill rfl (by decide) (by decide)
  have hb : c.runBatch = .done next := Machine.batch_of_fetch hf rfl
  have hb' : d.runBatch = .done last := Machine.batch_of_fetch hf' rfl
  have hc : c.tick = ⟨.ok (), d, d.output⟩ := by rw [tick_of_runs rfl rfl, hb]
  have hd : d.tick = ⟨.ok (), e, e.output⟩ := by rw [tick_of_runs rfl rfl, hb']
  have he : e.tick = ⟨.ok (), e, e.output⟩ := tick_of_awaitsKey rfl rfl
  have hcd : c.tick.console = d := congrArg Reply.console hc
  have hde : d.tick.console = e := congrArg Reply.console hd
  have hrun : c.run [.tick] = d := hcd
  have hrun' : c.run [.tick, .tick] = e := by
    show c.tick.console.tick.console = e
    rw [hcd, hde]
  have hfirst : c.moments .tick =
      [⟨.word 0xF018, c, c.withMachine next⟩, ⟨.timers, c.withMachine next, d⟩] :=
    (moments_tick_of_runs rfl rfl).trans (batchMoments_succ 0 hf rfl)
  have hsecond : d.moments .tick =
      [⟨.word 0xF10A, d, d.withMachine last⟩, ⟨.timers, d.withMachine last, e⟩] :=
    (moments_tick_of_runs rfl rfl).trans (batchMoments_succ 0 hf' rfl)
  have hhistory : c.history events =
      [⟨.word 0xF018, c, c.withMachine next⟩, ⟨.timers, c.withMachine next, d⟩,
        ⟨.word 0xF10A, d, d.withMachine last⟩, ⟨.timers, d.withMachine last, e⟩] := by
    rw [history, handle, hcd, hfirst, history, handle, hde, hsecond]
    rfl
  have hbeats : c.beats events = [c.tick, d.tick] := by
    have hcbeat : c.isBeat .tick = true := isBeat_tick_iff.mpr ⟨rfl, congrArg Reply.result hc⟩
    have hdbeat : d.isBeat .tick = true := isBeat_tick_iff.mpr ⟨rfl, congrArg Reply.result hd⟩
    rw [beats_of_isBeat hcbeat, hcd, beats_of_isBeat hdbeat, hde]
    rfl
  have hdelay : ∀ x ∈ c.history events, x.sets .delay = false := by
    rw [hhistory]
    intro x hx
    simp only [List.mem_cons, List.not_mem_nil, or_false] at hx
    rcases hx with rfl | rfl | rfl | rfl <;> rfl
  obtain ⟨htimer, htones, hpause⟩ := timers_count_beats c events
  refine ⟨hdelay, ?_, ?_, ?_, ?_⟩
  · refine (htimer .delay hdelay).trans ?_
    rw [hbeats]
    rfl
  · obtain ⟨before, after, zs, ws, hevents, hzs, hm, hreplies⟩ :=
      htones [] _ _ 0xF018 hhistory rfl rfl (by
        intro y hy
        simp only [List.mem_cons, List.not_mem_nil, or_false] at hy
        rcases hy with rfl | rfl | rfl <;> rfl)
    -- the word is the first of all, so no events come before its tick
    obtain rfl : before = [] := by
      cases before with
      | nil => rfl
      | cons event rest =>
        obtain ⟨rfl, -⟩ := List.cons.inj hevents
        rw [history, hfirst] at hzs
        cases hzs
    obtain rfl : after = [.tick, .tick] := (List.cons.inj hevents).2.symm
    obtain ⟨-, hmap⟩ := hreplies (congrArg Reply.result hc)
    refine hmap.trans ?_
    show beeps _ 2 (c.beats events).length = _
    rw [hbeats]
    rfl
  · rw [hrun']
    rfl
  · have hlatest : (c.run [.tick]).tick = ⟨.ok (), e, e.output⟩ := by rw [hrun, hd]
    have hwaiting : (c.run [.tick]).tick.console = e := congrArg Reply.console hlatest
    refine hpause [.tick] [] (congrArg Reply.result hlatest) rfl ?_ ?_
    · show (c.run [.tick]).tick.console.awaitsKey = true
      rw [hwaiting]
      rfl
    · show (c.run [.tick]).tick.console.tick.result = .ok ()
      rw [hwaiting, he]

end Console

end ChipEight
