import ChipEight.Proofs.History

/-!
# Bounds on reachable states

The counter is never masked to the size of memory, and neither are the return addresses. That both
stay small rests on where they come from:

* a word can only be fetched below `0x0FFF`, so a call notes at most `0x1000`
* jumps and calls go to three digits, and an offset adds at most `0xFF` to them
* a skip starts from a fetched word, so it ends at most at `0x1002`

`Machine.Bounded` collects the bounds, `Bounded.moves` says that every change of a console keeps
them, and `bounded_states` that they hold at every moment of every run.
-/

namespace ChipEight

variable {settings : Settings} {pad : HexPad} {m : Machine} {i : Instruction}

/-- The bounds of a machine's state. -/
structure Machine.Bounded (settings : Settings) (m : Machine) : Prop where
  counter_le : m.counter.toNat ≤ 0x10FE
  calls_mem : ∀ back ∈ m.calls, 0x0002 ≤ back.toNat ∧ back.toNat ≤ 0x1000
  depth_le : ∀ limit, settings.stackLimit = some limit → m.calls.length ≤ limit
  awaiting_le : ∀ x, m.awaiting = some x → x.toNat ≤ 0xF
  cols_eq : m.frame.cols = 64
  rows_eq : m.frame.rows = 32

namespace Instruction

/-! ## What single instructions keep -/

/-- Skipping or not, the counter goes at most two words past the word that was fetched. -/
theorem toNat_skipped_le {counter : UInt16} (h : counter.toNat ≤ 0x1000) (skip : Bool) :
    (if skip then counter + 2 else counter).toNat ≤ 0x10FE := by
  cases skip with
  | false =>
    show counter.toNat ≤ 0x10FE
    omega
  | true =>
    show (counter + 2).toNat ≤ 0x10FE
    rw [UInt16.toNat_add, show (2 : UInt16).toNat = 2 from rfl]
    omega

theorem toNat_offset_le {base : UInt16} (h : base.toNat < 0x1000) (offset : UInt8) :
    (base + offset.toUInt16).toNat ≤ 0x10FE := by
  have ho := offset.toNat_lt
  rw [UInt16.toNat_add, UInt8.toNat_toUInt16]
  omega

theorem counterAfter_le (ht : ∀ target, i.target? = some target → target.toNat < 0x1000)
    (hc : m.counter.toNat ≤ 0x1000) (hb : ∀ back ∈ m.calls, back.toNat ≤ 0x1000) :
    (i.counterAfter pad m).toNat ≤ 0x10FE := by
  cases i with
  | ret =>
    show (m.calls.headD m.counter).toNat ≤ 0x10FE
    cases hm : m.calls with
    | nil =>
      show m.counter.toNat ≤ 0x10FE
      omega
    | cons back calls =>
      have := hb back (by rw [hm]; exact List.mem_cons_self)
      show back.toNat ≤ 0x10FE
      omega
  | jump target | call target =>
    have := ht target rfl
    show target.toNat ≤ 0x10FE
    omega
  | jumpOffset base => exact toNat_offset_le (ht base rfl) (m.registers.get v0)
  | _ => exact toNat_skipped_le hc _

/-- Every return address is an old one or the one that a call notes. -/
theorem mem_callsAfter {back : UInt16} (h : back ∈ i.callsAfter m) :
    back = m.counter ∨ back ∈ m.calls := by
  cases i with
  | ret => exact .inr (List.mem_of_mem_tail h)
  | call target => exact List.mem_cons.mp h
  | _ => exact .inr h

theorem length_callsAfter_le {limit : Nat} (ho : i.obstacle? settings m = none)
    (hs : settings.stackLimit = some limit) (h : m.calls.length ≤ limit) :
    (i.callsAfter m).length ≤ limit := by
  cases i with
  | ret =>
    show m.calls.tail.length ≤ limit
    rw [List.length_tail]
    omega
  | call target =>
    show m.calls.length + 1 ≤ limit
    simp only [obstacle?, hs] at ho
    split at ho
    · cases ho
    · -- the call met no obstacle, so there was room for one more address
      omega
  | _ => exact h

theorem awaitingAfter_le {x : UInt8} (hm : ∀ x, m.awaiting = some x → x.toNat ≤ 0xF)
    (h : i.awaitingAfter m = some x) : x.toNat ≤ 0xF := by
  cases i with
  | awaitKey y =>
    obtain rfl : UInt8.ofNat y = x := Option.some.inj h
    have hy : y.val < 16 := y.isLt
    rw [UInt8.toNat_ofNat']
    omega
  | _ => exact hm x h

theorem cols_frameAfter (m : Machine) (i : Instruction) :
    (i.frameAfter m).cols = m.frame.cols := by
  cases i with
  | draw x y height => exact Frame.cols_stamp _ _
  | _ => rfl

theorem rows_frameAfter (m : Machine) (i : Instruction) :
    (i.frameAfter m).rows = m.frame.rows := by
  cases i with
  | draw x y height => exact Frame.rows_stamp _ _
  | _ => rfl

end Instruction

/-! ## What changes keep -/

namespace Machine.Bounded

theorem initial (settings : Settings) (random : Source) :
    (Machine.initial random).Bounded settings where
  counter_le := by
    show (UInt16.ofNat programStart).toNat ≤ 0x10FE
    decide
  calls_mem := nofun
  depth_le := fun limit _ => Nat.zero_le limit
  awaiting_le := nofun
  cols_eq := rfl
  rows_eq := rfl

/-- Carrying out a word keeps the bounds. That it was fetched bounds the counter anew. -/
theorem after {word : UInt16} (h : m.Bounded settings) (hf : m.fetch = .ok word)
    (ho : m.obstacle? settings word = none) : (m.after settings pad word).Bounded settings := by
  have hc : m.past.counter.toNat = m.counter.toNat + 2 := toNat_counter_past_of_fetch hf
  have hle : m.counter.toNat ≤ 0x0FFE := counter_le_of_fetch hf
  refine ⟨?_, ?_, ?_, ?_, ?_, ?_⟩
  · -- the bound on the old counter is of no use here, only that of the fetch
    exact Instruction.counterAfter_le (fun _ => Instruction.target_lt) (by omega)
      fun back hb => (h.calls_mem back hb).2
  · intro back hb
    rcases Instruction.mem_callsAfter hb with rfl | hb
    · omega
    · exact h.calls_mem back hb
  · intro limit hs
    exact Instruction.length_callsAfter_le ((obstacle?_past _).trans ho) hs (h.depth_le limit hs)
  · intro x hx
    exact Instruction.awaitingAfter_le h.awaiting_le hx
  · exact (Instruction.cols_frameAfter _ _).trans h.cols_eq
  · exact (Instruction.rows_frameAfter _ _).trans h.rows_eq

/-- A step that halts leaves the counter within its bound, whether or not it moved. -/
theorem halted {cause : Fault} {m' : Machine} (h : m.Bounded settings)
    (hs : m.step settings pad = .halted cause m') : m'.Bounded settings := by
  rcases step_eq_halted_iff.mp hs with ⟨-, rfl⟩ | ⟨word, hf, -, rfl⟩
  · exact h
  · have hc : m.past.counter.toNat = m.counter.toNat + 2 := toNat_counter_past_of_fetch hf
    have hle : m.counter.toNat ≤ 0x0FFE := counter_le_of_fetch hf
    exact { h with counter_le := by omega }

theorem touched {m' : Machine} (h : m.Bounded settings) (ht : Console.Touched m m') :
    m'.Bounded settings := by
  cases ht with
  | alone => exact h
  | loaded image => exact { h with }
  | delivered key hx => exact { h with awaiting_le := nofun }

/-- Every change of a console keeps the bounds of its machine. -/
theorem moves {c d : Console} {change : Change} (h : c.machine.Bounded settings)
    (hs : c.settings = settings) (hm : c.Moves change d) : d.machine.Bounded settings := by
  subst hs
  cases hm with
  | word hf hp =>
    obtain ⟨ho, rfl⟩ := perform_eq_done_iff.mp hp
    exact h.after hf ho
  | halt hs => exact h.halted hs
  | timers => exact { h with }
  | host he => exact h.touched (Console.touched_handle he)

end Machine.Bounded

namespace Console

/-! ## What runs keep -/

/-- A counter within its bound is far from the end of its sixteen bits. -/
theorem toNat_counter_skipIf (h : m.Bounded settings) (condition : Bool) :
    (m.past.skipIf condition).counter.toNat =
      m.counter.toNat + 2 + if condition then 2 else 0 := by
  have hle := h.counter_le
  have hp : m.past.counter.toNat = m.counter.toNat + 2 := Machine.toNat_counter_past (by omega)
  cases condition with
  | false => exact hp
  | true =>
    show m.past.past.counter.toNat = _
    rw [Machine.toNat_counter_past (by omega), hp]
    rfl

theorem forall_states_bounded (settings : Settings) (random : Source) (events : List Event) :
    ∀ c ∈ (start settings random).states events, c.machine.Bounded settings := by
  intro c hc
  refine (forall_states (P := fun d => d.settings = settings ∧ d.machine.Bounded settings)
    ⟨rfl, .initial settings random⟩ ?_ events c hc).2
  rintro d e change ⟨hs, hb⟩ hm
  exact ⟨hm.settings_eq.trans hs, hb.moves hs hm⟩

/-- The bounds hold whatever the settings, the random bytes and the events are, within batches as
well as between events. So the counter wraps neither when it moves past a word nor at a skip. -/
theorem bounded_states (settings : Settings) (random : Source) (events : List Event) :
    (start settings random).run events ∈ (start settings random).states events ∧
      ∀ c ∈ (start settings random).states events,
        c.machine.Bounded settings ∧
        c.machine.frame.cells.size = 2048 ∧
        c.machine.past.counter.toNat = c.machine.counter.toNat + 2 ∧
        ∀ condition, (c.machine.past.skipIf condition).counter.toNat =
          c.machine.counter.toNat + 2 + if condition then 2 else 0 := by
  refine ⟨run_mem_states _ events, ?_⟩
  intro c hc
  have hb := forall_states_bounded settings random events c hc
  refine ⟨hb, ?_, toNat_counter_skipIf hb false, toNat_counter_skipIf hb⟩
  rw [c.machine.frame.size_cells, hb.cols_eq, hb.rows_eq]

/-- A program that calls itself for ever, under a limit on its calls. -/
theorem bounded_states_endless_call :
    let c := start .classic (.ofSeed 0)
    let events := [.load [0x22, 0x00], .tick, .press 0x10, .tick]
    c.run events ∈ c.states events ∧ (c.run events).machine.Bounded .classic := by
  intro c events
  have h := bounded_states .classic (.ofSeed 0) events
  exact ⟨h.1, (h.2 _ h.1).1⟩

end Console

end ChipEight
