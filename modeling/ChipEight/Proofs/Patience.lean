import ChipEight.Proofs.Pacing
import ChipEight.Proofs.SessionFilter

/-!
# A patient host

A session tells its host how long it may rest. That is exact: a poll before that time is over finds
no tick due, and a poll right after it does. A host is patient if it rests before each of its polls
for as long as it was told since the one before. No poll of such a host is in vain.

* `isDue_add_remaining`, `isDue_eq_false_of_lt`: what remains is the time until a tick is due
* `pace_of_patient`: with a patient host, the pace remembers the time of the latest poll
* `rest_is_exact`: both, and that every poll of a patient host is a tick
-/

namespace ChipEight

namespace Pace

variable {p : Pace} {now last t : Nat}

/-! ## What remains -/

theorem remaining_of_last_eq_none (h : p.last = none) (now : Nat) : p.remaining now = 0 := by
  rw [remaining, h]

theorem remaining_of_last (h : p.last = some last) (now : Nat) :
    p.remaining now = p.interval - (now - last) := by
  rw [remaining, h]

/-- When the time that remains is over, a tick is due. A clock that is behind the latest tick has to
reach it first. -/
theorem isDue_add_remaining (h : ∀ last, p.last = some last → last ≤ now) :
    p.isDue (now + p.remaining now) = true := by
  cases hl : p.last with
  | none => exact isDue_of_last_eq_none hl _
  | some last =>
    have hle := h last hl
    rw [isDue_iff_of_last hl, remaining_of_last hl]
    omega

/-- Before that, none is. -/
theorem isDue_eq_false_of_lt (hle : now ≤ t) (hlt : t < now + p.remaining now) :
    p.isDue t = false := by
  cases hl : p.last with
  | none =>
    rw [remaining_of_last_eq_none hl] at hlt
    omega
  | some last =>
    rw [remaining_of_last hl] at hlt
    exact isDue_eq_false_iff.mpr ⟨last, hl, by omega⟩

theorem isDue_of_le (h : p.isDue now = true) (hle : now ≤ t) : p.isDue t = true := by
  cases hl : p.last with
  | none => exact isDue_of_last_eq_none hl _
  | some last =>
    rw [isDue_iff_of_last hl] at h ⊢
    omega

end Pace

namespace Session

/-- The time of a poll. -/
def Event.time? : Event → Option Nat
  | .poll now => some now
  | _ => none

/-- The time of the latest poll among events. -/
def latestPoll? (events : List Event) : Option Nat := (events.filterMap Event.time?).getLast?

/-- Whether the host of a session rests between each of its polls and the next: at some time since
the poll it asks how long it may rest, and it polls again when that time is over, or later. -/
def Patient (s : Session) (events : List Event) : Prop :=
  ∀ before now between next after,
    events = before ++ .poll now :: between ++ .poll next :: after →
    between.filterMap Event.time? = [] →
    ∃ heard unheard asked, between = heard ++ unheard ∧ now ≤ asked ∧
      asked + (s.run (before ++ .poll now :: heard)).idleTime asked ≤ next

variable {s : Session} {now next : Nat} {event : Event} {before after events : List Event}

/-! ## Polls and the pace -/

theorem Event.eq_poll_of_time? (h : event.time? = some now) : event = .poll now := by
  cases event with
  | poll => exact congrArg Event.poll (Option.some.inj h)
  | keyDown | keyUp | volume | dispose => cases h

theorem exists_of_latestPoll? (h : latestPoll? events = some now) :
    ∃ before between, events = before ++ .poll now :: between ∧
      between.filterMap Event.time? = [] := by
  obtain ⟨times, htimes⟩ := List.getLast?_eq_some_iff.mp h
  obtain ⟨first, rest, rfl, -, hrest⟩ := List.filterMap_eq_append_iff.mp htimes
  obtain ⟨quiet, event, between, rfl, -, hevent, hbetween⟩ := List.filterMap_eq_cons_iff.mp hrest
  obtain rfl := Event.eq_poll_of_time? hevent
  exact ⟨first ++ quiet, between, by rw [List.append_assoc], hbetween⟩

/-- Only polls move the pace. -/
theorem pace_handle_of_time?_eq_none (h : event.time? = none) :
    (s.handle event).session.pace = s.pace := by
  cases event with
  | poll now => cases h
  | keyDown key | keyUp key =>
    cases key with
    | none => rfl
    | some key =>
      simp only [handle, Session.key]
      split <;> rfl
  | volume percent => rfl
  | dispose =>
    simp only [handle, dispose]
    split <;> rfl

theorem pace_run_of_no_polls (h : events.filterMap Event.time? = []) :
    (s.run events).pace = s.pace := by
  induction events generalizing s with
  | nil => rfl
  | cons event rest ih =>
    rw [List.filterMap_eq_nil_iff] at h
    have hrest : rest.filterMap Event.time? = [] :=
      List.filterMap_eq_nil_iff.mpr fun e he => h e (List.mem_cons_of_mem _ he)
    have hfirst := pace_handle_of_time?_eq_none (s := s) (h event List.mem_cons_self)
    exact (ih (s := (s.handle event).session) hrest).trans hfirst

/-! ## Patient hosts -/

theorem Patient.of_append (h : s.Patient (before ++ after)) : s.Patient before := by
  rintro b now between next a rfl hquiet
  refine h b now between next (a ++ after) ?_ hquiet
  simp only [List.append_assoc, List.cons_append]

/-- The first poll of a host finds a tick due at a new pace. Each later one finds it due since the
host rested. -/
theorem isDue_of_patient (h : s.Patient (before ++ [.poll next]))
    (hpace : (s.run before).pace = { s.pace with last := latestPoll? before }) :
    (s.run before).pace.isDue next = true := by
  cases hl : latestPoll? before with
  | none =>
    refine Pace.isDue_of_last_eq_none ?_ next
    rw [hpace, hl]
  | some now =>
    obtain ⟨first, between, rfl, hquiet⟩ := exists_of_latestPoll? hl
    obtain ⟨heard, unheard, asked, rfl, hasked, hrested⟩ :=
      h first now between next [] rfl hquiet
    -- what the host heard was said by the pace that it polls
    have hsame : (s.run (first ++ .poll now :: heard)).pace =
        (s.run (first ++ .poll now :: (heard ++ unheard))).pace := by
      rw [← List.cons_append, ← List.append_assoc, run_append _ _ unheard]
      refine (pace_run_of_no_polls ?_).symm
      rw [List.filterMap_append, List.append_eq_nil_iff] at hquiet
      exact hquiet.2
    rw [idleTime, hsame] at hrested
    refine Pace.isDue_of_le (Pace.isDue_add_remaining ?_) hrested
    intro last hlast
    rw [hpace, hl] at hlast
    obtain rfl := Option.some.inj hlast
    exact hasked

/-- With a patient host the pace remembers the time of the latest poll, since each poll ticks. -/
theorem pace_of_patient (hopen : s.disposed = false) (hnew : s.pace.last = none)
    (hkept : events.any Event.isDispose = false) (h : s.Patient events) :
    (s.run events).pace = { s.pace with last := latestPoll? events } := by
  induction events using List.reverseRecOn with
  | nil =>
    show s.pace = { s.pace with last := none }
    rw [← hnew]
  | append_singleton before event ih =>
    rw [List.any_append, Bool.or_eq_false_iff] at hkept
    have hpace := ih hkept.1 h.of_append
    have hdisposed : (s.run before).disposed = false := by
      obtain ⟨-, -, hd⟩ := run_of_not_disposed hopen before
      rw [hd, hkept.1]
    have hrun : s.run (before ++ [event]) = ((s.run before).handle event).session :=
      run_append s before [event]
    rw [hrun]
    cases ht : event.time? with
    | none =>
      have hlatest : latestPoll? (before ++ [event]) = latestPoll? before := by
        simp [latestPoll?, ht]
      rw [pace_handle_of_time?_eq_none ht, hpace, hlatest]
    | some now =>
      obtain rfl := Event.eq_poll_of_time? ht
      have hlatest : latestPoll? (before ++ [.poll now]) = some now := by
        simp [latestPoll?, Event.time?]
      rw [handle, poll_of_isDue hdisposed (isDue_of_patient h hpace), hlatest, hpace]

/-- What a session says about its rest is exact.

* A poll finds a tick due exactly if no time remains.
* On a clock that is not behind the latest tick, a poll at the end of what remains finds a tick due,
  and no earlier one does.
* Every poll of a patient host is a tick of the console, in a session that began with a new pace and
  was not disposed of, whatever else the host does. -/
theorem rest_is_exact :
    (∀ (p : Pace) now, (p.poll now).1 = true ↔ p.remaining now = 0) ∧
    (∀ (p : Pace) now, (∀ last, p.last = some last → last ≤ now) →
      (p.poll (now + p.remaining now)).1 = true ∧
      ∀ t, now ≤ t → t < now + p.remaining now → (p.poll t).1 = false) ∧
    ∀ (console : Console) (interval : Nat) (events : List Event),
      let s := start console (.every interval)
      events.any Event.isDispose = false → s.Patient events →
      ∀ before now after, events = before ++ .poll now :: after →
        let t := s.run before
        let reply := t.handle (.poll now)
        let tick := t.console.tick
        reply.answer = some (tick.result.map fun _ => true) ∧
        reply.answer ≠ some (.ok false) ∧
        reply.session.console = tick.console ∧ reply.signals = tick.signals := by
  refine ⟨?_, ?_, ?_⟩
  · intro p now
    rw [Pace.fst_poll]
    exact Pace.isDue_iff_remaining p now
  · intro p now hlast
    rw [Pace.fst_poll]
    refine ⟨Pace.isDue_add_remaining hlast, fun t hle hlt => ?_⟩
    rw [Pace.fst_poll]
    exact Pace.isDue_eq_false_of_lt hle hlt
  · rintro console interval events s hkept hpatient before now after rfl t reply tick
    rw [List.any_append, Bool.or_eq_false_iff] at hkept
    have hbefore : s.Patient (before ++ [.poll now]) := by
      rw [List.append_cons] at hpatient
      exact hpatient.of_append
    have hpace := pace_of_patient rfl rfl hkept.1 hbefore.of_append
    have hdisposed : t.disposed = false := by
      obtain ⟨-, -, hd⟩ := run_of_not_disposed (s := s) rfl before
      exact hd.trans hkept.1
    have hreply : reply = _ := poll_of_isDue hdisposed (isDue_of_patient hbefore hpace)
    rw [hreply]
    refine ⟨rfl, ?_, rfl, rfl⟩
    show some (tick.result.map fun _ => true) ≠ some (.ok false)
    cases tick.result with
    | ok => exact nofun
    | error cause => exact nofun

/-- A host that hears of a key right after its first poll. Two units of time after the poll it is
told to rest for fourteen, and it polls again on the dot. -/
theorem rest_is_exact_on_the_dot :
    let s := start (Console.ofProgram [0x70, 0x01, 0x12, 0x00] 1) (.every 16)
    let events : List Event := [.poll 5, .keyDown (some 0x3), .poll 21]
    let p := (s.run [.poll 5]).pace
    p.remaining 7 = 14 ∧ (∀ last, p.last = some last → last ≤ 7) ∧
      (p.poll 21).1 = true ∧ (p.poll 20).1 = false ∧
      events.any Event.isDispose = false ∧ s.Patient events ∧
      ((s.run [.poll 5, .keyDown (some 0x3)]).handle (.poll 21)).answer ≠ some (.ok false) := by
  intro s events p
  have hp : p = ⟨16, some 5⟩ := rfl
  have hlast : ∀ last, p.last = some last → last ≤ 7 := by
    rw [hp]
    rintro last ⟨⟩
    decide
  have hpatient : s.Patient events := by
    intro before now between next after h hquiet
    -- the two polls are the first and the last event
    rcases before with _ | ⟨_, _ | ⟨_, _ | ⟨_, before⟩⟩⟩ <;>
      rcases between with _ | ⟨_, _ | ⟨_, between⟩⟩ <;> simp [events] at h
    obtain ⟨rfl, rfl, rfl, rfl⟩ := h
    exact ⟨[], [.keyDown (some 0x3)], 7, rfl, by decide, by decide⟩
  obtain ⟨-, hremaining, hpolls⟩ := rest_is_exact
  obtain ⟨hdue, hearly⟩ := hremaining p 7 hlast
  obtain ⟨-, hanswer, -⟩ := hpolls (Console.ofProgram [0x70, 0x01, 0x12, 0x00] 1) 16 events
    (by decide) hpatient [.poll 5, .keyDown (some 0x3)] 21 [] rfl
  exact ⟨rfl, hlast, hdue, hearly 20 (by decide) (by decide), by decide, hpatient, hanswer⟩

end Session

end ChipEight
