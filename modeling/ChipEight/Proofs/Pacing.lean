import Mathlib.Algebra.Order.Floor.Div
import ChipEight.Pace

/-!
# How many ticks a pace lets through

A pace is polled at whatever times a clock shows, and the clock may stand still or step back. The
ticks of a pace are the times of the polls that found a tick due. Since time that runs backwards
counts as none, no clock makes a tick come too early.

* `last_pollAll`: a pace remembers its latest tick and nothing else of its polls
* `apart_ticks`: the ticks are in order and an interval apart
* `Apart.length_mul_lt`: only so many times that are an interval apart fit into a stretch of time
* `ticks_at_most`: both over any sequence of polls
-/

namespace ChipEight.Pace

variable {p : Pace} {now last : Nat}

/-- The pace after polls. -/
def pollAll (p : Pace) (times : List Nat) : Pace := times.foldl (fun p now => (p.poll now).2) p

/-- The times of the polls that found a tick due, in order. -/
def ticks (p : Pace) : List Nat → List Nat
  | [] => []
  | now :: rest =>
    let polled := p.poll now
    if polled.1 then now :: polled.2.ticks rest else polled.2.ticks rest

/-- Whether times are in order and at least an interval apart. -/
def Apart (interval : Nat) (times : List Nat) : Prop :=
  times.Pairwise fun earlier later => earlier + interval ≤ later

/-! ## Single polls -/

theorem fst_poll (p : Pace) (now : Nat) : (p.poll now).1 = p.isDue now := by
  unfold poll
  cases p.isDue now <;> rfl

theorem isDue_of_last_eq_none (h : p.last = none) (now : Nat) : p.isDue now = true := by
  rw [isDue, h]

theorem isDue_iff_of_last (h : p.last = some last) :
    p.isDue now = true ↔ p.interval ≤ now - last := by
  rw [isDue, h]
  exact decide_eq_true_iff

theorem isDue_eq_false_iff : p.isDue now = false ↔
    ∃ last, p.last = some last ∧ now - last < p.interval := by
  cases h : p.last with
  | none => simp [isDue_of_last_eq_none h]
  | some last =>
    rw [← Bool.not_eq_true, isDue_iff_of_last h]
    simp

/-! ## Sequences of polls -/

theorem ticks_cons_of_isDue (h : p.isDue now = true) (rest : List Nat) :
    p.ticks (now :: rest) = now :: { p with last := some now }.ticks rest := by
  rw [ticks, poll_of_isDue h]
  rfl

theorem ticks_cons_of_not_isDue (h : p.isDue now = false) (rest : List Nat) :
    p.ticks (now :: rest) = p.ticks rest := by
  rw [ticks, poll_of_not_isDue h]
  rfl

theorem interval_pollAll (p : Pace) (times : List Nat) :
    (p.pollAll times).interval = p.interval := by
  induction times generalizing p with
  | nil => rfl
  | cons now rest ih =>
    refine (ih (p.poll now).2).trans ?_
    unfold poll
    cases p.isDue now <;> rfl

/-- A pace remembers its latest tick and nothing else of its polls. -/
theorem last_pollAll (p : Pace) (times : List Nat) :
    (p.pollAll times).last = (p.ticks times).getLast?.or p.last := by
  induction times generalizing p with
  | nil => rfl
  | cons now rest ih =>
    have hrest : (p.pollAll (now :: rest)).last = _ := ih (p.poll now).2
    cases h : p.isDue now with
    | true =>
      rw [hrest, poll_of_isDue h, ticks_cons_of_isDue h, List.getLast?_cons]
      cases ({ p with last := some now }.ticks rest).getLast? <;> rfl
    | false => rw [hrest, poll_of_not_isDue h, ticks_cons_of_not_isDue h]

/-- The ticks are in order and an interval apart, and so is the tick before them. -/
theorem apart_ticks (hi : 0 < p.interval) (times : List Nat) :
    Apart p.interval (p.last.toList ++ p.ticks times) := by
  induction times generalizing p with
  | nil =>
    rw [ticks, List.append_nil]
    cases p.last with
    | none => exact .nil
    | some last => exact List.pairwise_singleton _ _
  | cons now rest ih =>
    cases h : p.isDue now with
    | false =>
      rw [ticks_cons_of_not_isDue h]
      exact ih hi
    | true =>
      rw [ticks_cons_of_isDue h]
      have hrest : Apart p.interval (now :: { p with last := some now }.ticks rest) :=
        ih (p := { p with last := some now }) hi
      cases hl : p.last with
      | none => exact hrest
      | some last =>
        -- what comes an interval after this tick comes an interval after the one before it
        have hnow : p.interval ≤ now - last := (isDue_iff_of_last hl).mp h
        refine List.pairwise_cons.mpr ⟨fun t ht => ?_, hrest⟩
        rcases List.mem_cons.mp ht with rfl | ht
        · omega
        · have := (List.pairwise_cons.mp hrest).1 t ht
          omega

/-! ## Stretches of time -/

/-- Times that are an interval apart take up an interval each, but for the last. -/
theorem Apart.length_mul_lt {interval a b : Nat} {times : List Nat} (h : Apart interval times)
    (hab : a < b) (hmem : ∀ t ∈ times, a ≤ t ∧ t < b) :
    a + times.length * interval < b + interval := by
  induction times generalizing a with
  | nil =>
    rw [List.length_nil, Nat.zero_mul]
    omega
  | cons t rest ih =>
    obtain ⟨hfirst, hrest⟩ := List.pairwise_cons.mp h
    obtain ⟨ha, hb⟩ := hmem t List.mem_cons_self
    have hlater : ∀ t' ∈ rest, t + interval ≤ t' ∧ t' < b := fun t' ht' =>
      ⟨hfirst t' ht', (hmem t' (List.mem_cons_of_mem _ ht')).2⟩
    rw [List.length_cons, Nat.succ_mul]
    by_cases hroom : t + interval < b
    · have := ih hrest hroom hlater
      omega
    · -- no time is left for another one
      have hnone : rest = [] := List.eq_nil_iff_forall_not_mem.mpr fun t' ht' => by
        have := hlater t' ht'
        omega
      rw [hnone, List.length_nil, Nat.zero_mul]
      omega

theorem Apart.length_le {interval a W : Nat} {times : List Nat} (h : Apart interval times)
    (hi : 0 < interval) (hW : 0 < W) (hmem : ∀ t ∈ times, a ≤ t ∧ t < a + W) :
    times.length ≤ W ⌈/⌉ interval := by
  have hlt := h.length_mul_lt (Nat.lt_add_of_pos_right hW) hmem
  rw [Nat.ceilDiv_eq_add_pred_div, Nat.le_div_iff_mul_le hi]
  omega

/-- A new pace finds a tick due at its first poll, whatever its time, and each later tick is an
interval after the one before it. So a stretch of time `W` has no more ticks than it takes intervals
to cover it. A poll that finds no tick due changes nothing, and its time is less than an interval
after the latest tick. -/
theorem ticks_at_most (interval : Nat) (hi : 0 < interval) (times : List Nat) :
    let p : Pace := every interval
    (p.ticks times).head? = times.head? ∧
    (p.ticks times).Pairwise (fun t t' => t < t' ∧ t + interval ≤ t') ∧
    (∀ a W, 0 < W →
      ((p.ticks times).filter fun t => a ≤ t ∧ t < a + W).length ≤ W ⌈/⌉ interval) ∧
    ∀ before now after, times = before ++ now :: after →
      let q := p.pollAll before
      (q.poll now).1 = false →
        (q.poll now).2 = q ∧
        ∃ last, (p.ticks before).getLast? = some last ∧ now < last + interval := by
  intro p
  have hapart : Apart interval (p.ticks times) := apart_ticks (p := p) hi times
  refine ⟨?_, ?_, ?_, ?_⟩
  · cases times with
    | nil => rfl
    | cons now rest =>
      rw [ticks_cons_of_isDue rfl]
      rfl
  · exact hapart.imp fun h => ⟨by omega, h⟩
  · intro a W hW
    refine Apart.length_le (a := a) (hapart.filter _) hi hW fun t ht => ?_
    simpa using (List.mem_filter.mp ht).2
  · intro before now after _ q hnot
    rw [fst_poll] at hnot
    obtain ⟨last, hlast, hlt⟩ := isDue_eq_false_iff.mp hnot
    have hinterval : q.interval = interval := interval_pollAll p before
    rw [last_pollAll, show p.last = none from rfl, Option.or_none] at hlast
    rw [poll_of_not_isDue hnot]
    exact ⟨rfl, last, hlast, by omega⟩

/-- A clock that steps back twice. Two ticks are as many as fit into the time from 0 to 17. -/
theorem ticks_at_most_two :
    let p := every 16
    let times := [0, 10, 16, 3, 31, 40, 40]
    0 < 16 ∧ p.ticks times = [0, 16, 40] ∧
      ((p.ticks times).filter fun t => 0 ≤ t ∧ t < 0 + 17).length = 2 ∧ 17 ⌈/⌉ 16 = 2 ∧
      ((p.ticks times).filter fun t => 0 ≤ t ∧ t < 0 + 17).length ≤ 17 ⌈/⌉ 16 ∧
      (p.pollAll [0, 10, 16]).poll 3 = (false, p.pollAll [0, 10, 16]) ∧
      ∃ last, (p.ticks [0, 10, 16]).getLast? = some last ∧ 3 < last + 16 := by
  intro p times
  obtain ⟨-, -, hcount, hrefused⟩ := ticks_at_most 16 (by decide) times
  obtain ⟨hsame, hlast⟩ := hrefused [0, 10, 16] 3 [31, 40, 40] rfl (by decide)
  exact ⟨by decide, by decide, by decide, by decide, hcount 0 17 (by decide), by decide, hlast⟩

end ChipEight.Pace
