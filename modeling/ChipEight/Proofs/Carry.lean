import ChipEight.Proofs.Dependence

/-!
# Carries that are reported or not

The settings say whether the sum of two registers reports its carry. Consoles that differ in that
alone do the same for as long as no sum has a carry. At the first sum that has one, the flag is 1
in the one console and 0 in the other, and that is all the difference.

* `after_carrying`: only a sum with a carry looks at the setting, and only for the flag
* `history_carrying`: without such a sum, two consoles go the same way
* `history_carrying_first`: the first such sum, in the middle of a batch
* `carry_only_flags`: both over runs
-/

namespace ChipEight

/-- The settings with sums that report their carries, or with sums that do not. -/
def Settings.carrying (settings : Settings) (reports : Bool) : Settings :=
  { settings with addSetsCarry := reports }

/-- The console with sums that report their carries, or with sums that do not. -/
def Console.carrying (c : Console) (reports : Bool) : Console := c.map id (·.carrying reports)

/-- The reply of the console with sums that report their carries, or with sums that do not. -/
def Reply.carrying (reply : Reply) (reports : Bool) : Reply :=
  { reply with console := reply.console.carrying reports }

/-- Whether a word is the sum of two registers: `8xy4`. -/
def Word.isSum (w : UInt16) : Bool := (Word.family w).val = 0x8 ∧ (Word.n w).val = 0x4

/-- Whether a word is the sum of two registers, and the sum needs more than a byte. -/
def Machine.carries (m : Machine) (w : UInt16) : Bool :=
  Word.isSum w ∧
    0x100 ≤ (m.registers.get (Word.x w)).toNat + (m.registers.get (Word.y w)).toNat

namespace Moment

/-- Whether a sum with a carry was carried out. -/
def carries (x : Moment) : Bool :=
  match x.change with
  | .word w => x.before.machine.carries w
  | _ => false

/-- The moment of the console with sums that report their carries, or with sums that do not. -/
def carrying (x : Moment) (reports : Bool) : Moment :=
  ⟨x.change, x.before.carrying reports, x.after.carrying reports⟩

theorem word_of_carries (x : Moment) (h : x.carries = true) :
    ∃ w, x.change = .word w ∧ x.before.machine.carries w = true := by
  obtain ⟨change, before, after⟩ := x
  cases change with
  | word w => exact ⟨w, rfl, h⟩
  | halt | timers | host => cases h

end Moment

/-- The console with its flag set to a condition. -/
def Console.flagged (c : Console) (condition : Bool) : Console :=
  c.withMachine (c.machine.put flag (Operator.bit condition))

/-! ## Words -/

theorem Registers.set_set (r : Registers) (x : Register) (byte byte' : UInt8) :
    (r.set x byte).set x byte' = r.set x byte' := by
  refine ext_get fun y => ?_
  rw [get_set, get_set, get_set]
  split <;> rfl

/-- Only the digit 4 stands for a sum. -/
theorem Instruction.operator?_eq_add_iff {d : Fin 16} : operator? d = some .add ↔ d.val = 0x4 := by
  revert d
  decide

namespace Machine

variable {settings : Settings} {pad : HexPad}

theorem put_put (m : Machine) (x : Register) (byte byte' : UInt8) :
    (m.put x byte).put x byte' = m.put x byte' := by
  unfold put
  rw [Registers.set_set]

theorem obstacle?_carrying (settings : Settings) (reports : Bool) (m : Machine) (w : UInt16) :
    m.obstacle? (settings.carrying reports) w = m.obstacle? settings w := by
  unfold obstacle?
  cases Instruction.ofWord w <;> rfl

/-- Words other than sums do not look at the setting. -/
theorem after_carrying_of_not_isSum {w : UInt16} (hw : Word.isSum w = false) (reports : Bool)
    (m : Machine) : m.after (settings.carrying reports) pad w = m.after settings pad w := by
  have hs := Instruction.spells_ofWord w
  unfold after
  generalize Instruction.ofWord w = i at hs
  cases hs with
  | @combine o hf ho =>
    cases o with
    | add =>
      have hn : (Word.n w).val = 0x4 := Instruction.operator?_eq_add_iff.mp ho
      rw [Word.isSum, hf, hn] at hw
      cases hw
    | _ => rfl
  | _ => rfl

/-- A sum writes `Vx`, and then the flag by its carry and by the setting. -/
theorem after_of_isSum {w : UInt16} (hw : Word.isSum w = true) (settings : Settings)
    (m : Machine) :
    m.after settings pad w =
      (m.past.put (Word.x w) (m.registers.get (Word.x w) + m.registers.get (Word.y w))).put flag
        (Operator.bit (settings.addSetsCarry && m.carries w)) := by
  obtain ⟨hf, hn⟩ := of_decide_eq_true hw
  have hi : Instruction.ofWord w = .combine .add (Word.x w) (Word.y w) :=
    Instruction.ofWord_eq_of_spells
      (.combine (Fin.ext hf) (Instruction.operator?_eq_add_iff.mpr hn))
  have hc : m.carries w =
      decide (0x100 ≤ (m.registers.get (Word.x w)).toNat + (m.registers.get (Word.y w)).toNat) := by
    simp [carries, hw]
  rw [after, hi, hc]
  rfl

/-- Only a sum with a carry looks at the setting, and only for the flag. -/
theorem after_carrying (settings : Settings) (reports : Bool) (m : Machine) (w : UInt16) :
    m.after (settings.carrying reports) pad w =
      if m.carries w then (m.after settings pad w).put flag (Operator.bit reports)
      else m.after settings pad w := by
  cases hw : Word.isSum w with
  | false =>
    have hc : m.carries w = false := by simp [carries, hw]
    rw [hc]
    exact after_carrying_of_not_isSum hw reports m
  | true =>
    rw [after_of_isSum hw, after_of_isSum hw]
    cases m.carries w with
    | true =>
      rw [if_pos rfl, put_put, Bool.and_true]
      rfl
    | false => rw [if_neg Bool.false_ne_true, Bool.and_false, Bool.and_false]

end Machine

namespace Console

variable {c d : Console} {n : Nat} {event : Event} {events : List Event} {b : Bool}
  {xs ys : List Moment} {x : Moment}

/-! ## Batches -/

/-- Two consoles that differ in the setting begin a batch with the same word, or end it at once
in the same way. -/
theorem batchMoments_carrying_cases (n : Nat) (c : Console) (b : Bool) :
    (∃ x : Moment, batchMoments n c = [x] ∧ x.carries = false ∧
      batchMoments n (c.carrying b) = [x.carrying b]) ∨
    ∃ k w d, n = k + 1 ∧ batchMoments n c = ⟨.word w, c, d⟩ :: batchMoments k d ∧
      let e := if c.machine.carries w then d.flagged b else d
      batchMoments n (c.carrying b) =
        ⟨.word w, c.carrying b, e.carrying b⟩ :: batchMoments k (e.carrying b) := by
  cases n with
  | zero => exact .inl ⟨_, rfl, rfl, rfl⟩
  | succ n =>
    cases hf : c.machine.fetch with
    | error cause =>
      have hf' : (c.carrying b).machine.fetch = .error cause := hf
      refine .inl ⟨⟨.halt cause, c, c.finish (.halted cause c.machine)⟩, ?_, rfl, ?_⟩
      · simp only [batchMoments, hf]
      · simp only [batchMoments, hf']
        rfl
    | ok w =>
      have hf' : (c.carrying b).machine.fetch = .ok w := hf
      have hsame : (c.carrying b).machine.obstacle? (c.carrying b).settings w =
          c.machine.obstacle? c.settings w := Machine.obstacle?_carrying _ _ _ _
      cases ho : c.machine.obstacle? c.settings w with
      | some cause =>
        refine .inl ⟨_, batchMoments_of_obstacle n hf ho, rfl, ?_⟩
        exact batchMoments_of_obstacle n hf' (hsame.trans ho)
      | none =>
        refine .inr ⟨n, w, _, rfl, batchMoments_succ n hf ho, ?_⟩
        rw [batchMoments_succ n hf' (hsame.trans ho)]
        show ⟨.word w, c.carrying b, (c.carrying b).withMachine
          (c.machine.after (c.settings.carrying b) c.pad w)⟩ :: batchMoments n
            ((c.carrying b).withMachine
              (c.machine.after (c.settings.carrying b) c.pad w)) = _
        rw [Machine.after_carrying]
        cases c.machine.carries w <;> rfl

/-- A batch without a carry is the same whether or not carries are reported. -/
theorem batchMoments_carrying (h : ∀ x ∈ batchMoments n c, x.carries = false) :
    batchMoments n (c.carrying b) = (batchMoments n c).map (Moment.carrying · b) := by
  induction n generalizing c with
  | zero => rfl
  | succ n ih =>
    rcases batchMoments_carrying_cases (n + 1) c b with
      ⟨x, hb, -, hb'⟩ | ⟨k, w, d, hk, hb, hb'⟩
    · rw [hb, hb']
      rfl
    · obtain rfl : n = k := Nat.succ.inj hk
      rw [hb] at h ⊢
      have hw : c.machine.carries w = false := h _ List.mem_cons_self
      rw [hb', hw]
      exact congrArg _ (ih fun x hx => h x (List.mem_cons_of_mem _ hx))

/-- The first carry of a batch comes at the same word, and the flag after it tells whether it is
reported. -/
theorem batchMoments_carrying_first (h : batchMoments n c = xs ++ x :: ys)
    (hxs : ∀ y ∈ xs, y.carries = false) (hx : x.carries = true) :
    ∃ ys', batchMoments n (c.carrying b) = xs.map (Moment.carrying · b) ++
      ⟨x.change, x.before.carrying b, (x.after.flagged b).carrying b⟩ :: ys' := by
  induction xs generalizing c n with
  | nil =>
    rcases batchMoments_carrying_cases n c b with ⟨y, hb, hy, -⟩ | ⟨k, w, d, -, hb, hb'⟩
    · rw [hb] at h
      obtain ⟨rfl, -⟩ := List.cons.inj h
      cases hx.symm.trans hy
    · rw [hb] at h
      obtain ⟨rfl, -⟩ := List.cons.inj h
      have hw : c.machine.carries w = true := hx
      rw [hb', hw]
      exact ⟨_, rfl⟩
  | cons y xs ih =>
    rcases batchMoments_carrying_cases n c b with ⟨z, hb, -, -⟩ | ⟨k, w, d, -, hb, hb'⟩
    · rw [hb] at h
      simp at h
    · rw [hb] at h
      obtain ⟨rfl, hrest⟩ := List.cons.inj h
      have hw : c.machine.carries w = false := hxs _ List.mem_cons_self
      obtain ⟨ys', hys'⟩ := ih hrest fun z hz => hxs z (List.mem_cons_of_mem _ hz)
      rw [hb', hw]
      exact ⟨ys', congrArg _ hys'⟩

/-! ## Events -/

theorem carrying_of_settings (h : c.settings.addSetsCarry = b) : c.carrying b = c := by
  subst h
  rfl

theorem report_carrying (c : Console) (b : Bool) :
    (c.carrying b).report = c.report.carrying b := by
  have hf : (c.carrying b).fault = c.fault := rfl
  unfold report
  rw [hf]
  cases c.fault <;> rfl

theorem reached_carrying (c : Console) (xs : List Moment) :
    (c.carrying b).reached (xs.map (Moment.carrying · b)) =
      (c.reached xs).carrying b := by
  induction xs generalizing c with
  | nil => rfl
  | cons x rest ih => exact ih x.after

/-- Events other than ticks do not look at the setting. -/
theorem handle_carrying_of_ne_tick (he : event ≠ .tick) :
    (c.carrying b).handle event = (c.handle event).carrying b := by
  have hsame : c.map id (·.carrying b) = (c.carrying b).map id (·.carrying b) :=
    rfl
  have hconsole : (c.handle event).console.carrying b =
      ((c.carrying b).handle event).console.carrying b :=
    handle_map (fun _ => rfl) he hsame
  have hsettings : ((c.carrying b).handle event).console.settings.addSetsCarry = b := by
    rw [settings_handle]
    rfl
  rw [carrying_of_settings hsettings] at hconsole
  obtain ⟨hresult, hsignals⟩ := answer_handle he c (c.carrying b)
  unfold Reply.carrying
  rw [hconsole, hresult, hsignals]

/-- An event during which no sum has a carry is the same whether or not carries are reported. -/
theorem handle_carrying (h : ∀ x ∈ c.moments event, x.carries = false) :
    (c.carrying b).moments event = (c.moments event).map (Moment.carrying · b) ∧
      (c.carrying b).handle event = (c.handle event).carrying b := by
  by_cases he : event = .tick
  · subst he
    have hmoments : (c.carrying b).moments .tick =
        (c.moments .tick).map (Moment.carrying · b) := by
      cases hr : c.rests with
      | true =>
        rw [moments_tick_of_rests hr]
        exact moments_tick_of_rests hr
      | false =>
        rw [moments_tick_of_not_rests hr] at h ⊢
        have hr' : (c.carrying b).rests = false := hr
        exact (moments_tick_of_not_rests hr').trans (batchMoments_carrying h)
    refine ⟨hmoments, ?_⟩
    have hpath : Path c (c.moments .tick) c.tick.console := path_moments c .tick
    have hpath' : Path (c.carrying b) _ (c.carrying b).tick.console :=
      path_moments (c.carrying b) .tick
    have hconsole : (c.carrying b).tick.console = c.tick.console.carrying b := by
      rw [← hpath'.reached, hmoments, reached_carrying, hpath.reached]
    show (c.carrying b).tick = c.tick.carrying b
    rw [tick_eq_report, hconsole, report_carrying, ← tick_eq_report]
  · have hhandle : (c.carrying b).handle event = (c.handle event).carrying b :=
      handle_carrying_of_ne_tick he
    refine ⟨?_, hhandle⟩
    rw [moments_of_ne_tick he, moments_of_ne_tick he, hhandle]
    rfl

/-! ## Runs -/

/-- As long as no sum has a carry, it makes no difference whether carries are reported. -/
theorem history_carrying (h : ∀ x ∈ c.history events, x.carries = false) :
    (c.carrying b).history events = (c.history events).map (Moment.carrying · b) ∧
      (c.carrying b).replies events = (c.replies events).map (Reply.carrying · b) ∧
      (c.carrying b).run events = (c.run events).carrying b := by
  induction events generalizing c with
  | nil => exact ⟨rfl, rfl, rfl⟩
  | cons event rest ih =>
    obtain ⟨hmoments, hhandle⟩ := handle_carrying (b := b)
      fun x hx => h x (List.mem_append_left _ hx)
    obtain ⟨hhistory, hreplies, hrun⟩ := ih fun x hx => h x (List.mem_append_right _ hx)
    refine ⟨?_, ?_, ?_⟩
    · rw [history, history, List.map_append, hmoments, hhandle, ← hhistory]
      rfl
    · rw [replies, replies, List.map_cons, hhandle, ← hreplies]
      rfl
    · rw [run_cons, run_cons, hhandle, ← hrun]
      rfl

/-- The first carry comes in the same tick and at the same word, and the flag after it tells
whether it is reported. -/
theorem history_carrying_first (h : c.history events = xs ++ x :: ys)
    (hxs : ∀ y ∈ xs, y.carries = false) (hx : x.carries = true) :
    ∃ before after zs ws, events = before ++ .tick :: after ∧ xs = c.history before ++ zs ∧
      (c.run before).moments .tick = zs ++ x :: ws ∧
      (c.carrying b).replies before = (c.replies before).map (Reply.carrying · b) ∧
      (c.carrying b).run before = (c.run before).carrying b ∧
      ∃ ys', (c.carrying b).history events = xs.map (Moment.carrying · b) ++
        ⟨x.change, x.before.carrying b, (x.after.flagged b).carrying b⟩ :: ys' := by
  obtain ⟨before, event, after, zs, ws, rfl, rfl, hm⟩ := history_split h
  have hmem : x ∈ (c.run before).moments event := hm ▸ List.mem_append_cons_self
  obtain ⟨w, hw, -⟩ := x.word_of_carries hx
  obtain rfl : event = .tick := eq_tick_of_word hmem hw
  obtain ⟨hhistory, hreplies, hrun⟩ := history_carrying (b := b)
    fun y hy => hxs y (List.mem_append_left _ hy)
  refine ⟨before, after, zs, ws, rfl, rfl, hm, hreplies, hrun, ?_⟩
  cases hr : (c.run before).rests with
  | true =>
    rw [moments_tick_of_rests hr] at hmem
    cases hmem
  | false =>
    have hr' : ((c.run before).carrying b).rests = false := hr
    rw [moments_tick_of_not_rests hr] at hm
    obtain ⟨ys', hys'⟩ := batchMoments_carrying_first (b := b) hm
      (fun y hy => hxs y (List.mem_append_right _ hy)) hx
    have hm' : ((c.run before).carrying b).moments .tick = _ :=
      (moments_tick_of_not_rests hr').trans hys'
    refine ⟨ys' ++ (((c.run before).carrying b).handle .tick).console.history after, ?_⟩
    rw [history_append, history, hhistory, hrun, hm', List.map_append, List.append_assoc,
      List.append_assoc, List.cons_append]

/-- Where carries are not reported, a sum leaves the flag at 0. -/
theorem Moves.flag_of_isSum {w : UInt16} (h : c.Moves (.word w) d)
    (hc : c.settings.addSetsCarry = false) (hw : Word.isSum w = true) :
    d.machine.registers.get flag = 0 := by
  obtain ⟨-, -, rfl⟩ := h.of_word
  show (c.machine.after c.settings c.pad w).registers.get flag = 0
  rw [Machine.after_of_isSum hw, hc]
  exact (Registers.get_set _ _ _ _).trans (if_pos rfl)

/-- Where carries are not reported, the flag is 0 after every sum. -/
theorem flag_after_sum (hc : c.settings.addSetsCarry = false) (hx : x ∈ c.history events)
    {w : UInt16} (hw : x.change = .word w) (hsum : Word.isSum w = true) :
    x.after.machine.registers.get flag = 0 := by
  obtain ⟨hm, hsettings⟩ := (path_history c events).moves_of_mem hx
  rw [hw] at hm
  refine hm.flag_of_isSum ?_ hsum
  rw [hsettings, hc]

/-- Whether sums report their carries makes a difference to nothing but carries. Two consoles are
alike but for that setting.

* As long as no sum that one of them carries out has a carry, they go the same way word by word,
  answer every event in the same way and are the same after it.
* The first sum with a carry comes in the same tick for both, and at the same word. Right after it
  the flag is 0 where carries are not reported and 1 where they are, and nothing else differs.
* Where carries are not reported, the flag is 0 after every sum. -/
theorem carry_only_flags (c : Console) (events : List Event) :
    let literal := c.carrying false
    let corrected := c.carrying true
    ((∀ x ∈ literal.history events, x.carries = false) →
      corrected.history events = (literal.history events).map (Moment.carrying · true) ∧
      corrected.replies events = (literal.replies events).map (Reply.carrying · true) ∧
      corrected.run events = (literal.run events).carrying true) ∧
    (∀ xs x ys, literal.history events = xs ++ x :: ys →
      (∀ y ∈ xs, y.carries = false) → x.carries = true →
      ∃ before after zs ws x' ys', events = before ++ .tick :: after ∧
        corrected.replies before = (literal.replies before).map (Reply.carrying · true) ∧
        corrected.run before = (literal.run before).carrying true ∧
        xs = literal.history before ++ zs ∧ (literal.run before).moments .tick = zs ++ x :: ws ∧
        corrected.history events = xs.map (Moment.carrying · true) ++ x' :: ys' ∧
        x'.change = x.change ∧ x'.before = x.before.carrying true ∧
        x.after.machine.registers.get flag = 0 ∧
        x'.after = (x.after.withMachine (x.after.machine.put flag 1)).carrying true) ∧
    ∀ x ∈ literal.history events, ∀ w, x.change = .word w →
      Word.family w = 0x8 → Word.n w = 0x4 → x.after.machine.registers.get flag = 0 := by
  intro literal corrected
  refine ⟨fun h => history_carrying h, ?_, ?_⟩
  · intro xs x ys h hxs hx
    obtain ⟨before, after, zs, ws, he, hxs', hm, hreplies, hrun, ys', hhistory⟩ :=
      history_carrying_first (b := true) h hxs hx
    refine ⟨before, after, zs, ws, _, ys', he, hreplies, hrun, hxs', hm, hhistory, rfl, rfl, ?_, rfl⟩
    have hmem : x ∈ literal.history events := h ▸ List.mem_append_cons_self
    obtain ⟨w, hw, hcarries⟩ := x.word_of_carries hx
    obtain ⟨hsum, -⟩ := of_decide_eq_true hcarries
    exact flag_after_sum rfl hmem hw hsum
  · intro x hx w hw hf hn
    refine flag_after_sum rfl hx hw ?_
    rw [Word.isSum, hf, hn]
    rfl

/-- Two sums in one batch. Only the second one has a carry. -/
theorem carry_only_flags_mid_batch :
    let c := ofProgram [0x80, 0x24, 0x80, 0x14] 2
    let ready := c.withMachine ((c.machine.put 0x0 0xFF).put 0x1 0x01)
    let literal := ready.carrying false
    ∃ first second third second' rest', literal.history [.tick] = [first, second, third] ∧
      first.carries = false ∧ second.carries = true ∧
      (ready.carrying true).history [.tick] = first.carrying true :: second' :: rest' ∧
      second.after.machine.registers.get flag = 0 ∧
      second'.after = (second.after.withMachine
        (second.after.machine.put flag 1)).carrying true := by
  intro c ready literal
  let m := literal.machine
  let next := m.after literal.settings literal.pad 0x8024
  let last := next.after literal.settings literal.pad 0x8014
  have hm : m.memory = Memory.zero.overwrite programStart [0x80, 0x24, 0x80, 0x14] := rfl
  have hf : m.fetch = .ok 0x8024 := Machine.fetch_of_image (k := 0) hm rfl (by decide) (by decide)
  have hm' : next.memory = m.memory := Machine.memory_after (i := .combine .add 0x0 0x2) rfl
  have hf' : next.fetch = .ok 0x8014 :=
    Machine.fetch_of_image (k := 2) (hm'.trans hm) rfl (by decide) (by decide)
  let first : Moment := ⟨.word 0x8024, literal, literal.withMachine next⟩
  let second : Moment := ⟨.word 0x8014, literal.withMachine next, literal.withMachine last⟩
  let third : Moment := ⟨.timers, literal.withMachine last,
    (literal.withMachine last).finish (.done last)⟩
  have hhistory : literal.history [.tick] = [first] ++ second :: [third] := by
    show batchMoments (0 + 1 + 1) literal ++ [] = _
    rw [batchMoments_succ _ hf rfl, batchMoments_succ (c := literal.withMachine next) _ hf' rfl]
    rfl
  have hfirst : first.carries = false := rfl
  have hsecond : second.carries = true := rfl
  have hbefore : ∀ y ∈ [first], y.carries = false := by
    intro y hy
    obtain rfl := List.mem_singleton.mp hy
    exact hfirst
  obtain ⟨-, hcarry, -⟩ := carry_only_flags ready [.tick]
  obtain ⟨-, -, -, -, second', rest', -, -, -, -, -, hcorrected, -, -, hflag, hafter⟩ :=
    hcarry [first] second [third] hhistory hbefore hsecond
  exact ⟨first, second, third, second', rest', hhistory, hfirst, hsecond, hcorrected, hflag, hafter⟩

end Console

end ChipEight
