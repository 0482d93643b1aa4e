import ChipEight.Proofs.Bounds
import ChipEight.Proofs.CallStack

/-!
# Limits on calls

Consoles that differ only in how many calls may be open at once do the same for as long as the one
with the wider limit carries out no call that the other has no room for. At the first such call the
tighter console halts, in the middle of a batch, where the wider one goes on.

* `obstacle?_limited`: only calls look at the limit
* `batch_limited`, `handle_limited`: under a tighter limit an event is the same, or it is a tick
  that is cut short
* `limit_only_cuts`: the same over runs
-/

namespace ChipEight

/-- The settings with a limit on open calls. -/
def Settings.limited (settings : Settings) (limit : Nat) : Settings :=
  { settings with stackLimit := some limit }

/-- Whether settings let as many calls be open as a limit does. -/
def Settings.Allows (settings : Settings) (limit : Nat) : Prop :=
  ∀ wider, settings.stackLimit = some wider → limit ≤ wider

/-- The console with a limit on open calls. -/
def Console.limited (c : Console) (limit : Nat) : Console :=
  { c with settings := c.settings.limited limit }

/-- The reply with a limit on open calls. -/
def Reply.limited (reply : Reply) (limit : Nat) : Reply :=
  { reply with console := reply.console.limited limit }

/-- Whether a call was carried out that a limit has no room for. -/
def Moment.exceeds (limit : Nat) (x : Moment) : Bool :=
  match x.change with
  | .word w => (Word.family w).val = 0x2 ∧ limit ≤ x.before.machine.calls.length
  | _ => false

/-- The reply to a tick whose batch ends at the call of a moment, before the call has its effect. -/
def Moment.cut (limit : Nat) (x : Moment) : Reply :=
  ⟨.error (.callDepth limit),
    { x.before with machine := x.before.machine.past, fault := some (.callDepth limit) }, []⟩

namespace Machine

variable {settings : Settings} {pad : HexPad} {m : Machine} {word : UInt16} {limit : Nat}

/-! ## Words under a limit -/

/-- Only calls look at the limit, and only where they find it reached. -/
theorem obstacle?_limited (hl : settings.Allows limit) :
    m.obstacle? (settings.limited limit) word =
      if Word.family word = 0x2 ∧ limit ≤ m.calls.length then some (Fault.callDepth limit)
      else m.obstacle? settings word := by
  by_cases hw : Word.family word = 0x2
  · have hcall : Instruction.ofWord word = .call (Word.nnn word) :=
      Instruction.ofWord_eq_of_spells (.call hw)
    unfold obstacle?
    rw [hcall]
    show (if limit ≤ m.calls.length then some (Fault.callDepth limit) else none) = _
    by_cases hle : limit ≤ m.calls.length
    · rw [if_pos hle, if_pos ⟨hw, hle⟩]
    · rw [if_neg hle, if_neg fun h => hle h.2]
      simp only [Instruction.obstacle?]
      split
      · rfl
      · next wider hs =>
        -- where the tighter limit has room for the call, so has the wider one
        have := hl wider hs
        rw [if_neg (by omega)]
  · rw [if_neg fun h => hw h.1]
    have hs := Instruction.spells_ofWord word
    unfold obstacle?
    generalize Instruction.ofWord word = i at hs
    cases hs with
    | call h => exact absurd h hw
    | _ => rfl

/-- An obstacle under the wider limit is one under the tighter limit. -/
theorem obstacle?_limited_of_some {cause : Fault} (hl : settings.Allows limit)
    (hd : m.calls.length ≤ limit) (ho : m.obstacle? settings word = some cause) :
    m.obstacle? (settings.limited limit) word = some cause := by
  rw [obstacle?_limited hl]
  by_cases hx : Word.family word = 0x2 ∧ limit ≤ m.calls.length
  · rw [if_pos hx]
    unfold obstacle? at ho
    rw [Instruction.ofWord_eq_of_spells (.call hx.1)] at ho
    simp only [Instruction.obstacle?] at ho
    split at ho
    · cases ho
    · next wider hs =>
      have hlw := hl wider hs
      split at ho
      · -- the wider limit is reached as well, so the two are one
        obtain rfl : wider = limit := by omega
        exact ho
      · cases ho
  · rw [if_neg hx, ho]

theorem after_limited (settings : Settings) (pad : HexPad) (m : Machine) (word : UInt16)
    (limit : Nat) : m.after (settings.limited limit) pad word = m.after settings pad word := rfl

/-- Only a call that the limit has no room for takes the open calls past it. -/
theorem length_calls_after_le (hl : settings.Allows limit) (hd : m.calls.length ≤ limit)
    (ho : m.obstacle? settings word = none)
    (hx : ¬ (Word.family word = 0x2 ∧ limit ≤ m.calls.length)) :
    (m.after settings pad word).calls.length ≤ limit := by
  have ht : m.obstacle? (settings.limited limit) word = none := by
    rw [obstacle?_limited hl, if_neg hx, ho]
  exact Instruction.length_callsAfter_le ((obstacle?_past _).trans ht) rfl hd

end Machine

namespace Console

variable {c d e : Console} {event : Event} {events : List Event} {limit : Nat}

theorem exceeds_word {word : UInt16} :
    Moment.exceeds limit ⟨.word word, c, d⟩ = true ↔
      Word.family word = 0x2 ∧ limit ≤ c.machine.calls.length := by
  rw [Fin.ext_iff]
  exact decide_eq_true_iff

/-- A moment that exceeds a limit is a call. -/
theorem Moves.enter_of_exceeds {change : Change} (hm : c.Moves change d)
    (hx : Moment.exceeds limit ⟨change, c, d⟩ = true) :
    ∃ w, change = .word w ∧ Word.family w = 0x2 ∧ limit ≤ c.machine.calls.length ∧
      d = c.withMachine (c.machine.past.enter (Word.nnn w)) := by
  cases hm with
  | @word w m hf hp =>
    obtain ⟨hw, hle⟩ := exceeds_word.mp hx
    obtain ⟨-, rfl⟩ := Machine.perform_eq_done_iff.mp hp
    refine ⟨w, rfl, hw, hle, ?_⟩
    rw [Machine.after, Instruction.ofWord_eq_of_spells (.call hw)]
    rfl
  | halt | timers | host => cases hx

/-! ## Open calls -/

theorem Moves.length_calls_le {change : Change} (hm : c.Moves change d)
    (hl : c.settings.Allows limit) (hd : c.machine.calls.length ≤ limit)
    (hx : Moment.exceeds limit ⟨change, c, d⟩ = false) : d.machine.calls.length ≤ limit := by
  cases hm with
  | @word w m hf hp =>
    obtain ⟨ho, rfl⟩ := Machine.perform_eq_done_iff.mp hp
    refine Machine.length_calls_after_le hl hd ho fun h => ?_
    rw [exceeds_word.mpr h] at hx
    cases hx
  | @halt cause m hs =>
    show m.calls.length ≤ limit
    rwa [calls_of_halted hs]
  | timers => exact hd
  | host he => rwa [calls_of_touched (touched_handle he)]

theorem Path.length_calls_le {xs : List Moment} (hp : Path c xs d)
    (hl : c.settings.Allows limit) (hd : c.machine.calls.length ≤ limit)
    (hx : ∀ x ∈ xs, x.exceeds limit = false) : d.machine.calls.length ≤ limit := by
  induction hp with
  | nil => exact hd
  | cons hm _ ih =>
    refine ih (by rwa [hm.settings_eq]) (hm.length_calls_le hl hd (hx _ List.mem_cons_self)) ?_
    exact fun x h => hx x (List.mem_cons_of_mem _ h)

/-! ## Events under a limit -/

/-- Under a tighter limit a batch is the same up to the first call that exceeds it, and ends
there. -/
theorem batch_limited (n : Nat) (hl : c.settings.Allows limit)
    (hd : c.machine.calls.length ≤ limit) :
    c.machine.batch (c.settings.limited limit) c.pad n =
      match (batchMoments n c).find? (Moment.exceeds limit) with
      | some x => .halted (.callDepth limit) x.before.machine.past
      | none => c.machine.batch c.settings c.pad n := by
  induction n generalizing c with
  | zero => rfl
  | succ n ih =>
    cases hf : c.machine.fetch with
    | error cause =>
      have hm : batchMoments (n + 1) c = [⟨.halt cause, c, c.finish (.halted cause c.machine)⟩] := by
        simp only [batchMoments, hf]
      rw [hm, Machine.batch, Machine.batch, Machine.step_of_fetch_error hf,
        Machine.step_of_fetch_error hf]
      rfl
    | ok word =>
      cases ho : c.machine.obstacle? c.settings word with
      | some cause =>
        rw [batchMoments_of_obstacle n hf ho, Machine.batch_of_obstacle hf ho,
          Machine.batch_of_obstacle hf (Machine.obstacle?_limited_of_some hl hd ho)]
        rfl
      | none =>
        rw [batchMoments_succ n hf ho, Machine.batch_of_fetch hf ho]
        have ht : c.machine.obstacle? (c.settings.limited limit) word = _ :=
          Machine.obstacle?_limited hl
        by_cases hx : Word.family word = 0x2 ∧ limit ≤ c.machine.calls.length
        · rw [if_pos hx] at ht
          rw [List.find?_cons_of_pos (exceeds_word.mpr hx), Machine.batch_of_obstacle hf ht]
        · rw [if_neg hx, ho] at ht
          rw [List.find?_cons_of_neg fun h => hx (exceeds_word.mp h), Machine.batch_of_fetch hf ht,
            Machine.after_limited]
          exact ih (c := c.withMachine (c.machine.after c.settings c.pad word)) hl
            (Machine.length_calls_after_le hl hd ho hx)

theorem tick_limited (hl : c.settings.Allows limit) (hd : c.machine.calls.length ≤ limit) :
    (c.limited limit).tick =
      (match (c.moments .tick).find? (Moment.exceeds limit) with
        | some x => x.cut limit
        | none => c.tick).limited limit := by
  cases hf : c.fault with
  | some cause =>
    have hm : c.moments .tick = [] := if_pos (by simp [hf])
    have hf' : (c.limited limit).fault = some cause := hf
    rw [hm, tick_of_fault hf, tick_of_fault hf']
    rfl
  | none =>
    have hf' : (c.limited limit).fault = none := hf
    cases hk : c.awaitsKey with
    | true =>
      have hm : c.moments .tick = [] := if_pos (by simp [hk])
      have hk' : (c.limited limit).awaitsKey = true := hk
      rw [hm, tick_of_awaitsKey hf hk, tick_of_awaitsKey hf' hk']
      rfl
    | false =>
      have hk' : (c.limited limit).awaitsKey = false := hk
      have hb : (c.limited limit).runBatch = _ :=
        batch_limited c.settings.instructionsPerTick hl hd
      rw [moments_tick_of_runs hf hk, tick_of_runs hf' hk']
      cases hx : (batchMoments c.settings.instructionsPerTick c).find? (Moment.exceeds limit) with
      | none =>
        have hsame : (c.limited limit).runBatch = c.runBatch := by
          rw [hb, hx]
          rfl
        show _ = c.tick.limited limit
        rw [hsame, tick_of_runs hf hk]
        cases c.runBatch <;> rfl
      | some x =>
        have hcut : (c.limited limit).runBatch =
            .halted (.callDepth limit) x.before.machine.past := by rw [hb, hx]
        obtain ⟨⟨m, hbefore⟩, -⟩ := of_mem_batchMoments (List.mem_of_find?_eq_some hx)
        show _ = (x.cut limit).limited limit
        rw [hcut, Moment.cut, hbefore]
        rfl

theorem load_limited (c : Console) (limit : Nat) (image : List UInt8) :
    (c.limited limit).load image = (c.load image).limited limit := by
  by_cases h : image.length ≤ programCapacity
  · rw [load_of_le h, load_of_le h]
    rfl
  · rw [load_of_lt (Nat.lt_of_not_le h), load_of_lt (Nat.lt_of_not_le h)]
    rfl

theorem deliver_limited (c : Console) (limit : Nat) (key : UInt8) :
    (c.limited limit).deliver key = (c.deliver key).limited limit := by
  have ha : (c.limited limit).machine.awaiting = c.machine.awaiting := rfl
  unfold deliver
  rw [ha]
  cases c.machine.awaiting <;> rfl

/-- Under a tighter limit an event is answered in the same way, unless it is a tick that a call
cuts short. -/
theorem handle_limited (hl : c.settings.Allows limit) (hd : c.machine.calls.length ≤ limit)
    (event : Event) :
    (c.limited limit).handle event =
      (match (c.moments event).find? (Moment.exceeds limit) with
        | some x => x.cut limit
        | none => c.handle event).limited limit := by
  cases event with
  | tick => exact tick_limited hl hd
  | load image => exact load_limited c limit image
  | loadFrom source =>
    show (c.limited limit).loadFrom source = (c.loadFrom source).limited limit
    unfold loadFrom
    cases Image.ofReadings source with
    | ok image => exact load_limited c limit image
    | error cause => rfl
  | press key =>
    have hp : (c.limited limit).press key = (c.press key).limited limit :=
      deliver_limited { c with pad := c.pad.press key } limit key
    show (⟨.ok (), (c.limited limit).press key, []⟩ : Reply) = _
    rw [hp]
    rfl
  | deliver key =>
    show (⟨.ok (), (c.limited limit).deliver key, []⟩ : Reply) = _
    rw [deliver_limited]
    rfl
  | release | volume => rfl

/-! ## Runs under a limit -/

theorem handle_limited_of_none (hl : c.settings.Allows limit) (hd : c.machine.calls.length ≤ limit)
    (hx : ∀ x ∈ c.moments event, x.exceeds limit = false) :
    (c.limited limit).handle event = (c.handle event).limited limit := by
  have hn : (c.moments event).find? (Moment.exceeds limit) = none :=
    List.find?_eq_none.mpr fun x h => by rw [hx x h]; nofun
  rw [handle_limited hl hd, hn]

/-- Without a call that exceeds the tighter limit, the limits make no difference. -/
theorem replies_limited (hl : c.settings.Allows limit) (hd : c.machine.calls.length ≤ limit)
    (hx : ∀ x ∈ c.history events, x.exceeds limit = false) :
    (c.limited limit).replies events = (c.replies events).map (Reply.limited · limit) ∧
      (c.limited limit).run events = (c.run events).limited limit := by
  induction events generalizing c with
  | nil => exact ⟨rfl, rfl⟩
  | cons event rest ih =>
    have hfirst : ∀ x ∈ c.moments event, x.exceeds limit = false :=
      fun x h => hx x (List.mem_append_left _ h)
    have hrest : ∀ x ∈ (c.handle event).console.history rest, x.exceeds limit = false :=
      fun x h => hx x (List.mem_append_right _ h)
    have hh := handle_limited_of_none hl hd hfirst
    have hl' : (c.handle event).console.settings.Allows limit := by rwa [settings_handle]
    have hd' := (path_moments c event).length_calls_le hl hd hfirst
    obtain ⟨hr, hs⟩ := ih hl' hd' hrest
    constructor
    · rw [replies, replies, List.map_cons, hh]
      exact congrArg _ hr
    · rw [run_cons, run_cons, hh]
      exact hs

theorem tick_of_exceeds {x : Moment} (h : x ∈ c.moments event) (hx : x.exceeds limit = true) :
    event = .tick := by
  obtain ⟨change, before, after⟩ := x
  cases change with
  | word w => exact eq_tick_of_word h rfl
  | halt | timers | host => cases hx

/-- The first call that exceeds the tighter limit cuts a tick short. -/
theorem tick_cut (hl : c.settings.Allows limit) (hd : c.machine.calls.length ≤ limit)
    {xs ys : List Moment} {x : Moment} (h : c.history events = xs ++ x :: ys)
    (hxs : ∀ y ∈ xs, y.exceeds limit = false) (hx : x.exceeds limit = true) :
    ∃ before after zs ws, events = before ++ .tick :: after ∧
      xs = c.history before ++ zs ∧ (c.run before).moments .tick = zs ++ x :: ws ∧
      ((c.limited limit).run before).tick = (x.cut limit).limited limit := by
  obtain ⟨before, event, after, zs, ws, he, rfl, hm⟩ := history_split h
  obtain rfl : event = .tick := tick_of_exceeds (hm ▸ List.mem_append_cons_self) hx
  have hbefore : ∀ y ∈ c.history before, y.exceeds limit = false :=
    fun y hy => hxs y (List.mem_append_left _ hy)
  obtain ⟨-, hrun⟩ := replies_limited hl hd hbefore
  -- the consoles are the same when that tick begins, and no call before it left less room
  have hl' : (c.run before).settings.Allows limit := by rwa [settings_run]
  have hd' : (c.run before).machine.calls.length ≤ limit :=
    (path_history c before).length_calls_le hl hd hbefore
  have hfirst : ((c.run before).moments .tick).find? (Moment.exceeds limit) = some x := by
    refine List.find?_eq_some_iff_append.mpr ⟨hx, zs, ws, hm, fun y hy => ?_⟩
    rw [hxs y (List.mem_append_right _ hy)]
    rfl
  refine ⟨before, after, zs, ws, he, rfl, hm, ?_⟩
  rw [hrun, tick_limited hl' hd', hfirst]

/-- A console that never reports calls nested too deep met no call that exceeds its limit. -/
theorem exceeds_eq_false_of_replies (hl : c.settings.Allows limit)
    (hd : c.machine.calls.length ≤ limit)
    (hr : ∀ reply ∈ (c.limited limit).replies events,
      reply.result ≠ .error (.callDepth limit)) :
    ∀ x ∈ c.history events, x.exceeds limit = false := by
  cases hf : (c.history events).find? (Moment.exceeds limit) with
  | none =>
    intro x hx
    exact Bool.eq_false_iff.mpr (List.find?_eq_none.mp hf x hx)
  | some x =>
    obtain ⟨hx, xs, ys, h, hxs⟩ := List.find?_eq_some_iff_append.mp hf
    have hxs' : ∀ y ∈ xs, y.exceeds limit = false := by simpa using hxs
    obtain ⟨before, after, -, -, rfl, -, -, ht⟩ := tick_cut hl hd h hxs' hx
    have hmem : ((c.limited limit).run before).tick ∈
        (c.limited limit).replies (before ++ .tick :: after) := by
      rw [replies_append]
      exact List.mem_append_right _ List.mem_cons_self
    refine absurd ?_ (hr _ hmem)
    rw [ht]
    rfl

/-- A limit on open calls only ever cuts a run short. The two consoles differ in their limits
alone: the first has one, and the second has none or one that is no tighter.

* As long as the second carries out no call that the first has no room for, they answer every
  event in the same way and are the same after it.
* The first such call comes in the same tick for both. The first console reports that calls are
  nested too deep, signals nothing, and is what the second was when it had fetched the call and
  not yet entered it.
* So if the first console never reports that, the two are the same throughout. -/
theorem limit_only_cuts (settings : Settings) (random : Source) (limit : Nat)
    (hl : ∀ wider, settings.stackLimit = some wider → limit ≤ wider) (events : List Event) :
    let tight := start { settings with stackLimit := some limit } random
    let wide := start settings random
    ((∀ x ∈ wide.history events, x.exceeds limit = false) →
      tight.replies events = (wide.replies events).map (Reply.limited · limit) ∧
      tight.run events = (wide.run events).limited limit) ∧
    (∀ xs x ys, wide.history events = xs ++ x :: ys →
      (∀ y ∈ xs, y.exceeds limit = false) → x.exceeds limit = true →
      ∃ before after zs ws w, events = before ++ .tick :: after ∧
        tight.replies before = (wide.replies before).map (Reply.limited · limit) ∧
        tight.run before = (wide.run before).limited limit ∧
        xs = wide.history before ++ zs ∧ (wide.run before).moments .tick = zs ++ x :: ws ∧
        x.change = .word w ∧ Word.family w = 0x2 ∧ limit ≤ x.before.machine.calls.length ∧
        x.after = x.before.withMachine (x.before.machine.past.enter (Word.nnn w)) ∧
        (tight.run before).tick = Reply.limited ⟨.error (.callDepth limit),
          { x.before with machine := x.before.machine.past, fault := some (.callDepth limit) },
          []⟩ limit) ∧
    ((∀ reply ∈ tight.replies events, reply.result ≠ .error (.callDepth limit)) →
      tight.replies events = (wide.replies events).map (Reply.limited · limit) ∧
      tight.run events = (wide.run events).limited limit) := by
  intro tight wide
  have hd : wide.machine.calls.length ≤ limit := Nat.zero_le limit
  have hsame : ∀ es, (∀ x ∈ wide.history es, x.exceeds limit = false) →
      tight.replies es = (wide.replies es).map (Reply.limited · limit) ∧
      tight.run es = (wide.run es).limited limit :=
    fun _ => replies_limited hl hd
  refine ⟨hsame events, ?_, ?_⟩
  · intro xs x ys h hxs hx
    obtain ⟨before, after, zs, ws, he, rfl, hm, ht⟩ := tick_cut (c := wide) hl hd h hxs hx
    obtain ⟨-, hmoves, -⟩ := (h ▸ path_history wide events).split
    obtain ⟨w, hw, hfamily, hle, hafter⟩ := hmoves.enter_of_exceeds hx
    obtain ⟨hreplies, hrun⟩ := hsame before fun y hy => hxs y (List.mem_append_left _ hy)
    exact ⟨before, after, zs, ws, w, he, hreplies, hrun, rfl, hm, hw, hfamily, hle, hafter, ht⟩
  · intro hr
    exact hsame events (exceeds_eq_false_of_replies hl hd hr)

/-- A program that calls itself for ever halts within a batch where only one call may be open. -/
theorem limit_only_cuts_endless_call :
    let tight := start { instructionsPerTick := 2, stackLimit := some 1 } (.ofSeed 0)
    let wide := start { instructionsPerTick := 2 } (.ofSeed 0)
    (∀ wider, wide.settings.stackLimit = some wider → 1 ≤ wider) ∧
      (wide.run [.load [0x22, 0x00]]).tick.result = .ok () ∧
      (tight.run [.load [0x22, 0x00]]).tick.result = .error (.callDepth 1) := by
  intro tight wide
  let events : List Event := [.load [0x22, 0x00], .tick]
  let loaded := (wide.load [0x22, 0x00]).console
  let once := loaded.withMachine (loaded.machine.after loaded.settings loaded.pad 0x2200)
  let twice := once.withMachine (once.machine.after loaded.settings loaded.pad 0x2200)
  have hm : loaded.machine.memory = Memory.initial.overwrite programStart [0x22, 0x00] :=
    memory_load (by decide)
  have hf : loaded.machine.fetch = .ok 0x2200 :=
    Machine.fetch_of_image (k := 0) hm rfl (by decide) (by decide)
  have hm' : once.machine.memory = loaded.machine.memory :=
    Machine.memory_after (i := .call 0x200) rfl
  have hf' : once.machine.fetch = .ok 0x2200 :=
    Machine.fetch_of_image (k := 0) (hm'.trans hm) rfl (by decide) (by decide)
  have hhistory : wide.history events =
      [⟨.host (.load [0x22, 0x00]), wide, loaded⟩, ⟨.word 0x2200, loaded, once⟩] ++
        ⟨.word 0x2200, once, twice⟩ :: [⟨.timers, twice, twice.finish (.done twice.machine)⟩] := by
    show ⟨.host (.load [0x22, 0x00]), wide, loaded⟩ :: (batchMoments (1 + 1) loaded ++ []) = _
    rw [batchMoments_succ 1 hf rfl, batchMoments_succ (c := once) 0 hf' rfl]
    rfl
  have hfirst : ∀ y ∈ ([⟨.host (.load [0x22, 0x00]), wide, loaded⟩,
      ⟨.word 0x2200, loaded, once⟩] : List Moment), y.exceeds 1 = false := by
    intro y hy
    rcases List.mem_cons.mp hy with rfl | hy
    · rfl
    · obtain rfl := List.mem_singleton.mp hy
      rfl
  have hl : ∀ wider, wide.settings.stackLimit = some wider → 1 ≤ wider := nofun
  have hwide : loaded.tick.result = .ok () := by
    have hb : loaded.runBatch = .done twice.machine := by
      show loaded.machine.batch loaded.settings loaded.pad (0 + 1 + 1) = _
      rw [Machine.batch_of_fetch hf rfl]
      exact Machine.batch_of_fetch hf' rfl
    rw [tick_of_runs rfl rfl, hb]
  obtain ⟨-, hcut, -⟩ := limit_only_cuts { instructionsPerTick := 2 } (.ofSeed 0) 1 hl events
  obtain ⟨before, after, -, -, -, he, -, -, -, -, -, -, -, -, ht⟩ :=
    hcut _ _ _ hhistory hfirst rfl
  refine ⟨hl, hwide, ?_⟩
  -- the tick that is cut short is the only one there is
  rcases List.cons_eq_append_iff.mp he with ⟨-, hload⟩ | ⟨rest, rfl, htick⟩
  · cases hload
  · rcases List.cons_eq_append_iff.mp htick with ⟨rfl, -⟩ | ⟨rest, rfl, hend⟩
    · exact congrArg Reply.result ht
    · simp at hend

end Console

end ChipEight
