import ChipEight.Proofs.Dependence

/-!
# The size of batches is a matter of timing

A console that carries out one word in a tick needs as many ticks for a batch as the batch has
words. Its timers run as often, so in the end they differ from those of a console that carries out
the batch at once. As long as no word looks at a timer and none waits for a key, they differ in
nothing else.

* `untimed_run_ticks`: one batch
* `halts_within`: a fault in the middle of it
* `batch_size_only_times`: runs of batches, with other events between them
-/

namespace ChipEight

/-- The machine without its timers. -/
def Machine.untimed (m : Machine) : Machine := m.withTimers 0 0

/-- The settings with one word in a tick. -/
def Settings.stepwise (settings : Settings) : Settings := { settings with instructionsPerTick := 1 }

/-- The console without its timers and the size of its batches. -/
def Console.untimed (c : Console) : Console := c.map .untimed .stepwise

/-- Whether a word was carried out that looks at a timer or waits for a key. -/
def Moment.timed (x : Moment) : Bool :=
  match x.change with
  | .word w => (Word.family w).val = 0xF ∧ (Word.kk w = 0x07 ∨ Word.kk w = 0x0A)
  | _ => false

/-- Whether an event is a tick. -/
def Event.isTick : Event → Bool
  | .tick => true
  | _ => false

/-- Rounds of events, each of some ticks and of what the host does after them. -/
def rounds (host : Nat → List Event) (ticks : Nat) : Nat → List Event
  | 0 => []
  | k + 1 => rounds host ticks k ++ (List.replicate ticks .tick ++ host k)

theorem Moment.timed_eq_false {c d : Console} {w : UInt16}
    (h : Moment.timed ⟨.word w, c, d⟩ = false) :
    (∀ x, Instruction.ofWord w ≠ .readDelay x) ∧ Word.awaits? w = none := by
  have hw : ¬ ((Word.family w).val = 0xF ∧ (Word.kk w = 0x07 ∨ Word.kk w = 0x0A)) :=
    of_decide_eq_false h
  constructor
  · intro x hx
    cases Instruction.ofWord_eq_iff.mp hx with
    | readDelay hf hk => exact hw ⟨congrArg Fin.val hf, .inl hk⟩
  · exact if_neg fun ha => hw ⟨ha.1, .inr ha.2⟩

theorem waits_of_not_timed {xs : List Moment} (h : ∀ x ∈ xs, x.timed = false) : waits xs = [] := by
  refine List.filterMap_eq_nil_iff.mpr fun x hx => ?_
  have ht := h x hx
  obtain ⟨change, before, after⟩ := x
  cases change with
  | word w => exact (Moment.timed_eq_false ht).2
  | halt | timers | host => rfl

/-! ## Words -/

namespace Machine

variable {settings : Settings} {pad : HexPad} {m m' next left : Machine} {word : UInt16}
  {cause : Fault}

theorem awaiting_untimed (h : m.untimed = m'.untimed) : m'.awaiting = m.awaiting := by
  show m'.untimed.awaiting = m.untimed.awaiting
  rw [h]

theorem fetch_untimed (h : m.untimed = m'.untimed) : m'.fetch = m.fetch := by
  show m'.untimed.fetch = m.untimed.fetch
  rw [h]

theorem obstacle?_untimed (h : m.untimed = m'.untimed) :
    m'.obstacle? settings word = m.obstacle? settings word := by
  rw [← obstacle?_withTimers settings m 0 0, ← obstacle?_withTimers settings m' 0 0]
  exact congrArg (obstacle? settings · word) h.symm

theorem after_untimed (hw : ∀ x, Instruction.ofWord word ≠ .readDelay x)
    (h : m.untimed = m'.untimed) :
    (m.after settings pad word).untimed = (m'.after settings pad word).untimed := by
  have hafter : ∀ m : Machine,
      (m.untimed.after settings pad word).untimed = (m.after settings pad word).untimed := by
    intro m
    have hpast : m.untimed.past = m.past.withTimers 0 0 := rfl
    unfold after
    rw [hpast, Instruction.effect_withTimers (.inl hw)]
    rfl
  rw [← hafter m, ← hafter m', h]

theorem step_halted_untimed (h : m.untimed = m'.untimed)
    (hs : m.step settings pad = .halted cause left) :
    ∃ left', m'.step settings pad = .halted cause left' ∧ left.untimed = left'.untimed := by
  rcases step_eq_halted_iff.mp hs with ⟨hf, rfl⟩ | ⟨word, hf, ho, rfl⟩
  · exact ⟨m', step_eq_halted_iff.mpr (.inl ⟨(fetch_untimed h).trans hf, rfl⟩), h⟩
  · refine ⟨m'.past, step_eq_halted_iff.mpr (.inr ⟨word, ?_, ?_, rfl⟩), ?_⟩
    · exact (fetch_untimed h).trans hf
    · exact (obstacle?_untimed h).trans ho
    · exact congrArg past h

theorem batch_one (m : Machine) : m.batch settings pad 1 = m.step settings pad := by
  rw [batch]
  cases m.step settings pad <;> rfl

/-- A batch goes as far as its first step that halts. -/
theorem batch_of_step_halted {j n : Nat} (hj : j < n) (hb : m.batch settings pad j = .done next)
    (hs : next.step settings pad = .halted cause left) :
    m.batch settings pad n = .halted cause left := by
  obtain ⟨k, rfl⟩ : ∃ k, n = j + (k + 1) := ⟨n - j - 1, by omega⟩
  rw [batch_add, hb]
  show next.batch settings pad (k + 1) = _
  rw [batch, hs]

end Machine

namespace Console

variable {c d : Console} {n : Nat}

/-! ## Batches -/

/-- The words of a shorter batch are among those of a longer one. -/
theorem mem_batchMoments_of_le {j : Nat} (hj : j ≤ n) {x : Moment} (hx : x ∈ batchMoments j c)
    (hc : x.change ≠ .timers) : x ∈ batchMoments n c := by
  induction j generalizing c n with
  | zero =>
    obtain rfl := List.mem_singleton.mp hx
    exact absurd rfl hc
  | succ j ih =>
    obtain ⟨n, rfl⟩ : ∃ k, n = k + 1 := ⟨n - 1, by omega⟩
    unfold batchMoments at hx ⊢
    split at hx
    · exact hx
    · split at hx
      · exact hx
      · rcases List.mem_cons.mp hx with rfl | hx
        · exact List.mem_cons_self
        · exact List.mem_cons_of_mem _ (ih (by omega) hx)

theorem timed_of_le {j : Nat} (hj : j ≤ n) (hw : ∀ x ∈ batchMoments n c, x.timed = false) :
    ∀ x ∈ batchMoments j c, x.timed = false := by
  intro x hx
  by_cases hc : x.change = .timers
  · unfold Moment.timed
    rw [hc]
  · exact hw x (mem_batchMoments_of_le hj hx hc)

theorem run_ticks_of_rests (h : c.rests = true) (n : Nat) : c.run (List.replicate n .tick) = c := by
  induction n with
  | zero => rfl
  | succ n ih =>
    show c.tick.console.run (List.replicate n .tick) = c
    rw [console_tick_of_rests h, ih]

theorem untimed_finish_done {m m' : Machine} (h : c.untimed = d.untimed)
    (hm : m.untimed = m'.untimed) :
    (c.finish (.done m)).untimed = (d.finish (.done m')).untimed := by
  have ho : (Outcome.done m).map .untimed = (Outcome.done m').map .untimed :=
    congrArg Outcome.done hm
  exact finish_map (fun hm => hm) h ho

theorem untimed_finish_halted {cause : Fault} {m m' : Machine} (h : c.untimed = d.untimed)
    (hm : m.untimed = m'.untimed) :
    (c.finish (.halted cause m)).untimed = (d.finish (.halted cause m')).untimed := by
  have ho : (Outcome.halted cause m).map .untimed = (Outcome.halted cause m').map .untimed :=
    congrArg (Outcome.halted cause) hm
  exact finish_map (fun hm => hm) h ho

theorem runBatch_single (hd : d.settings.instructionsPerTick = 1) (h : c.untimed = d.untimed) :
    d.runBatch = d.machine.step c.settings c.pad := by
  obtain ⟨-, hsettings, hpad, -⟩ := map_eq_iff.mp h
  have hrules : c.settings.SameRules d.settings :=
    Settings.sameRules_of_eq (g := Settings.stepwise) (fun _ => ⟨rfl, rfl, rfl⟩) hsettings
  unfold runBatch
  rw [hd, ← hpad, Machine.batch_of_sameRules hrules, Machine.batch_one]

/-- A batch comes to the same, timers apart, as that many ticks of one word each. -/
theorem untimed_run_ticks (hd : d.settings.instructionsPerTick = 1) (h : c.untimed = d.untimed)
    (hf : c.fault = none) (ha : c.machine.awaiting = none)
    (hw : ∀ x ∈ batchMoments n c, x.timed = false) :
    (c.finish (c.machine.batch c.settings c.pad n)).untimed =
      (d.run (List.replicate n .tick)).untimed := by
  -- on the number of words; the first of them is the first tick of the console that steps
  induction n generalizing c d with
  | zero => exact h
  | succ n ih =>
    obtain ⟨hmachine, -, -, hfault⟩ := map_eq_iff.mp h
    have hdf : d.fault = none := hfault.symm.trans hf
    have hdk : d.awaitsKey = false :=
      awaitsKey_eq_false_iff.mpr ((Machine.awaiting_untimed hmachine).trans ha)
    show _ = (d.tick.console.run (List.replicate n .tick)).untimed
    rw [console_tick hdf hdk, runBatch_single hd h, Machine.batch]
    cases hs : c.machine.step c.settings c.pad with
    | halted cause left =>
      obtain ⟨left', hs', hleft⟩ := Machine.step_halted_untimed hmachine hs
      -- the remaining ticks only report the fault
      rw [hs', run_ticks_of_rests rfl]
      exact untimed_finish_halted h hleft
    | done next =>
      obtain ⟨w, hfetch, ho, rfl⟩ := Machine.step_eq_done_iff.mp hs
      rw [batchMoments_succ n hfetch ho] at hw
      obtain ⟨hread, hawait⟩ := Moment.timed_eq_false (hw _ List.mem_cons_self)
      have hs' : d.machine.step c.settings c.pad = .done (d.machine.after c.settings c.pad w) :=
        Machine.step_eq_done_iff.mpr ⟨w, (Machine.fetch_untimed hmachine).trans hfetch,
          (Machine.obstacle?_untimed hmachine).trans ho, rfl⟩
      have hnext : (c.machine.after c.settings c.pad w).untimed =
          (d.machine.after c.settings c.pad w).untimed := Machine.after_untimed hread hmachine
      have ha' : (c.machine.after c.settings c.pad w).awaiting = none := by
        refine (Instruction.awaitingAfter_ofWord c.machine.past w).trans ?_
        rw [hawait]
        exact ha
      rw [hs', ← finish_withMachine c (c.machine.after c.settings c.pad w)]
      refine ih (c := c.withMachine _) ?_ ?_ hf ha' fun x hx => hw x (List.mem_cons_of_mem _ hx)
      · exact hd
      · exact untimed_finish_done h hnext

/-- A batch that a fault cuts short has the same fault, timers apart, when it is carried out in
ticks of one word each, and in the tick of the same word. -/
theorem halts_within {j : Nat} {next left : Machine} {cause : Fault}
    (hd : d.settings.instructionsPerTick = 1) (h : c.untimed = d.untimed)
    (hf : c.fault = none) (ha : c.machine.awaiting = none)
    (hw : ∀ x ∈ batchMoments j c, x.timed = false)
    (hb : c.machine.batch c.settings c.pad j = .done next)
    (hs : next.step c.settings c.pad = .halted cause left) :
    let e := d.run (List.replicate j .tick)
    e.fault = none ∧ e.tick.result = .error cause ∧
      (c.finish (.halted cause left)).untimed = e.tick.console.untimed := by
  intro e
  have hrun : (c.finish (.done next)).untimed = e.untimed := by
    rw [← hb]
    exact untimed_run_ticks hd h hf ha hw
  have hpath : Path c (batchMoments j c) (c.finish (.done next)) := hb ▸ path_batchMoments j c
  have hn : (c.finish (.done next)).machine.awaiting = none :=
    hpath.awaiting_eq_none ha (waits_of_not_timed hw)
  obtain ⟨hmachine, -, -, hfault⟩ := map_eq_iff.mp hrun
  have he : e.fault = none := hfault.symm.trans hf
  have hek : e.awaitsKey = false :=
    awaitsKey_eq_false_iff.mpr ((Machine.awaiting_untimed hmachine).trans hn)
  have hsingle : e.settings.instructionsPerTick = 1 := by
    rw [settings_run]
    exact hd
  have hnext : next.untimed = e.machine.untimed := hmachine
  obtain ⟨left', hs', hleft⟩ := Machine.step_halted_untimed hnext hs
  have hbatch : e.runBatch = .halted cause left' := (runBatch_single hsingle hrun).trans hs'
  refine ⟨he, ?_, ?_⟩
  · rw [tick_of_runs he hek, hbatch]
  · rw [console_tick he hek, hbatch, ← untimed_finish_halted hrun hleft]
    rfl

/-! ## Rounds -/

/-- What the host does between ticks comes to the same, timers apart. -/
theorem untimed_run_host {events : List Event} (he : ∀ event ∈ events, event ≠ .tick)
    (h : c.untimed = d.untimed) : (c.run events).untimed = (d.run events).untimed := by
  induction events generalizing c d with
  | nil => exact h
  | cons event rest ih =>
    refine ih (fun e hr => he e (List.mem_cons_of_mem _ hr)) ?_
    refine handle_map (fun m => ?_) (he event List.mem_cons_self) h
    exact (Machine.received_withTimers m 0 0 [event]).symm

/-- A round of one tick comes to the same, timers apart, as a round of as many as its batch has
words. -/
theorem untimed_run_round {host : List Event} (hhost : ∀ event ∈ host, event ≠ .tick)
    (hd : d.settings.instructionsPerTick = 1) (h : c.untimed = d.untimed)
    (ha : c.machine.awaiting = none) (hw : ∀ x ∈ c.moments .tick, x.timed = false) :
    (c.run (List.replicate 1 .tick ++ host)).untimed =
      (d.run (List.replicate c.settings.instructionsPerTick .tick ++ host)).untimed := by
  rw [run_append, run_append]
  refine untimed_run_host hhost ?_
  show c.tick.console.untimed = _
  cases hf : c.fault with
  | some cause =>
    obtain ⟨-, -, -, hfault⟩ := map_eq_iff.mp h
    rw [tick_of_fault hf, run_ticks_of_rests (rests_of_fault (hfault.symm.trans hf)), h]
  | none =>
    have hk : c.awaitsKey = false := awaitsKey_eq_false_iff.mpr ha
    rw [moments_tick_of_runs hf hk] at hw
    rw [console_tick hf hk]
    exact untimed_run_ticks hd h hf ha hw

variable {host : Nat → List Event}

theorem untimed_run_rounds (hhost : ∀ i, ∀ event ∈ host i, event ≠ .tick)
    (hd : d.settings.instructionsPerTick = 1) (h : c.untimed = d.untimed)
    (ha : c.machine.awaiting = none) (k : Nat)
    (hw : ∀ x ∈ c.history (rounds host 1 k), x.timed = false) :
    (c.run (rounds host 1 k)).untimed =
      (d.run (rounds host c.settings.instructionsPerTick k)).untimed := by
  induction k with
  | zero => exact h
  | succ k ih =>
    rw [rounds, history_append] at hw
    have hbefore : ∀ x ∈ c.history (rounds host 1 k), x.timed = false :=
      fun x hx => hw x (List.mem_append_left _ hx)
    have htick : ∀ x ∈ (c.run (rounds host 1 k)).moments .tick, x.timed = false :=
      fun x hx => hw x (List.mem_append_right _ (List.mem_append_left _ hx))
    have hk : (c.run (rounds host 1 k)).machine.awaiting = none :=
      (path_history c _).awaiting_eq_none ha (waits_of_not_timed hbefore)
    have hround := untimed_run_round (hhost k) (by rwa [settings_run]) (ih hbefore) hk htick
    rw [settings_run] at hround
    rw [rounds, rounds, run_append c, run_append d]
    exact hround

end Console

theorem countP_isTick_rounds (hhost : ∀ i, ∀ event ∈ host i, event ≠ .tick) (ticks k : Nat) :
    (rounds host ticks k).countP Event.isTick = k * ticks := by
  have hnone : ∀ i, (host i).countP Event.isTick = 0 := by
    intro i
    refine List.countP_eq_zero.mpr fun event he => ?_
    cases event with
    | tick => exact absurd rfl (hhost i _ he)
    | _ => nofun
  have hall : (List.replicate ticks Event.tick).countP Event.isTick = ticks := by
    rw [List.countP_replicate]
    rfl
  induction k with
  | zero => simp [rounds]
  | succ k ih =>
    rw [rounds, List.countP_append, List.countP_append, ih, hall, hnone, Nat.succ_mul]
    rfl

/-- A round is among the rounds up to any later one. -/
theorem rounds_of_lt (host : Nat → List Event) (ticks : Nat) {i k : Nat} (h : i < k) :
    ∃ rest, rounds host ticks k =
      rounds host ticks i ++ (List.replicate ticks .tick ++ host i) ++ rest := by
  induction k with
  | zero => exact absurd h (Nat.not_lt_zero i)
  | succ k ih =>
    rcases Nat.lt_succ_iff_lt_or_eq.mp h with hlt | rfl
    · obtain ⟨rest, hrest⟩ := ih hlt
      refine ⟨rest ++ (List.replicate ticks .tick ++ host k), ?_⟩
      rw [rounds, hrest, List.append_assoc]
    · exact ⟨[], (List.append_nil _).symm⟩

namespace Console

/-- How many words a batch has is a matter of timing. Beside a console stands one that is the same
but for carrying out one word in a tick. In every round the first ticks once and the second as many
times as a batch has words, and then the host does the same to both. If no word of the first looks
at a timer or waits for a key, the two agree after every round on everything but their timers. If
the batch of the first in round `i` halts at the word after `j` others, the second has halted at no
word before, and it halts with the same fault, and agrees again, in the tick after `i` rounds and
`j` ticks. -/
theorem batch_size_only_times (c : Console) (hk : c.awaitsKey = false) (host : Nat → List Event)
    (hhost : ∀ i, ∀ event ∈ host i, event ≠ .tick) (k : Nat)
    (hw : ∀ x ∈ c.history (rounds host 1 k), x.timed = false) :
    let n := c.settings.instructionsPerTick
    let single : Console := { c with settings := { c.settings with instructionsPerTick := 1 } }
    (c.run (rounds host 1 k)).untimed = (single.run (rounds host n k)).untimed ∧
    ∀ i < k, ∀ j < n, ∀ next left cause,
      let before := c.run (rounds host 1 i)
      let ticks := rounds host n i ++ List.replicate j .tick
      before.fault = none →
      before.machine.batch before.settings before.pad j = .done next →
      next.step before.settings before.pad = .halted cause left →
      before.tick = ⟨.error cause, { before with machine := left, fault := some cause }, []⟩ ∧
      ticks.countP Event.isTick = i * n + j ∧
      (single.run ticks).fault = none ∧
      (single.run ticks).tick.result = .error cause ∧
      before.tick.console.untimed = (single.run ticks).tick.console.untimed := by
  intro n single
  have ha : c.machine.awaiting = none := awaitsKey_eq_false_iff.mp hk
  have hsame : c.untimed = single.untimed := rfl
  refine ⟨untimed_run_rounds hhost rfl hsame ha k hw, ?_⟩
  intro i hi j hj next left cause before ticks hfault hb hs
  obtain ⟨rest, hrest⟩ := rounds_of_lt host 1 hi
  rw [hrest, history_append, history_append] at hw
  have hbefore : ∀ x ∈ c.history (rounds host 1 i), x.timed = false :=
    fun x hx => hw x (List.mem_append_left _ (List.mem_append_left _ hx))
  have htick : ∀ x ∈ before.moments .tick, x.timed = false :=
    fun x hx => hw x (List.mem_append_left _ (List.mem_append_right _ (List.mem_append_left _ hx)))
  have hawaits : before.machine.awaiting = none :=
    (path_history c _).awaiting_eq_none ha (waits_of_not_timed hbefore)
  have hawaitsKey : before.awaitsKey = false := awaitsKey_eq_false_iff.mpr hawaits
  have hn : before.settings.instructionsPerTick = n := by rw [settings_run]
  have hbatch : before.runBatch = .halted cause left := by
    unfold runBatch
    rw [hn]
    exact Machine.batch_of_step_halted hj hb hs
  have hreply : before.tick =
      ⟨.error cause, { before with machine := left, fault := some cause }, []⟩ := by
    rw [tick_of_runs hfault hawaitsKey, hbatch]
    rfl
  have hround : before.untimed = (single.run (rounds host n i)).untimed :=
    untimed_run_rounds hhost rfl hsame ha i hbefore
  rw [moments_tick_of_runs hfault hawaitsKey, hn] at htick
  have hsingle : (single.run (rounds host n i)).settings.instructionsPerTick = 1 := by
    rw [settings_run]
  obtain ⟨hnone, herror, huntimed⟩ :=
    halts_within hsingle hround hfault hawaits (timed_of_le (Nat.le_of_lt hj) htick) hb hs
  rw [← run_append] at hnone herror huntimed
  refine ⟨hreply, ?_, hnone, herror, ?_⟩
  · rw [List.countP_append, countP_isTick_rounds hhost, List.countP_replicate]
    rfl
  · rw [hreply]
    exact huntimed

/-- A program that adds to a register and then returns from no call, in a batch of two words. -/
theorem batch_size_only_times_astray :
    let c := ofProgram [0x70, 0x01, 0x00, 0xEE] 2
    let single := ofProgram [0x70, 0x01, 0x00, 0xEE] 1
    let host : Nat → List Event := fun _ => [.press 0x5]
    c.awaitsKey = false ∧ (∀ i, ∀ event ∈ host i, event ≠ .tick) ∧
      (∀ x ∈ c.history (rounds host 1 1), x.timed = false) ∧
      c.tick.result = .error .emptyCallStack ∧
      (single.run [.tick]).fault = none ∧
      (single.run [.tick]).tick.result = .error .emptyCallStack := by
  intro c single host
  let m := c.machine
  let next := m.after c.settings c.pad 0x7001
  let added := c.withMachine next
  have hm : m.memory = Memory.zero.overwrite programStart [0x70, 0x01, 0x00, 0xEE] := rfl
  have hf : m.fetch = .ok 0x7001 := Machine.fetch_of_image (k := 0) hm rfl (by decide) (by decide)
  have hm' : next.memory = m.memory := Machine.memory_after (i := .add 0x0 0x01) rfl
  have hf' : next.fetch = .ok 0x00EE :=
    Machine.fetch_of_image (k := 2) (hm'.trans hm) rfl (by decide) (by decide)
  have hs' : next.step c.settings c.pad = .halted .emptyCallStack next.past :=
    Machine.step_eq_halted_iff.mpr (.inr ⟨_, hf', rfl, rfl⟩)
  have hhost : ∀ i, ∀ event ∈ host i, event ≠ .tick := by
    intro i event he
    obtain rfl := List.mem_singleton.mp he
    nofun
  have hhistory : c.history (rounds host 1 1) =
      [⟨.word 0x7001, c, added⟩,
        ⟨.halt .emptyCallStack, added, added.finish (.halted .emptyCallStack next.past)⟩,
        ⟨.host (.press 0x5), c.tick.console, c.tick.console.press 0x5⟩] := by
    show batchMoments (0 + 1 + 1) c ++ _ = _
    rw [batchMoments_succ _ hf rfl, batchMoments_of_obstacle (c := added) _ hf' rfl]
    rfl
  have hw : ∀ x ∈ c.history (rounds host 1 1), x.timed = false := by
    rw [hhistory]
    intro x hx
    simp only [List.mem_cons, List.not_mem_nil, or_false] at hx
    rcases hx with rfl | rfl | rfl <;> rfl
  have hb : m.batch c.settings c.pad 1 = .done next := by
    rw [Machine.batch_of_fetch hf rfl]
    rfl
  obtain ⟨-, hhalts⟩ := batch_size_only_times c rfl host hhost 1 hw
  obtain ⟨htick, -, hnone, herror, -⟩ :=
    hhalts 0 (by decide) 1 (by decide) next next.past .emptyCallStack rfl hb hs'
  exact ⟨rfl, hhost, hw, congrArg Reply.result htick, hnone, herror⟩

end Console

end ChipEight
