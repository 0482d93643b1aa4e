import ChipEight.Proofs.History

/-!
# Calls and returns

A call notes where to come back to on top of the calls that are open. Whatever a program does
then, it cannot reach below that note without coming back to it: only `00EE` takes anything off
the list, and it takes one address, to which it goes.

The latest call stands first in `State.calls`. What lies below a call is a suffix of the list.

* `Moves.suffix_or_return`: one change keeps the note or is the return to it
* `Path.suffix`: so do any number of changes, as long as the list is not as short as before the call
* `return_of_call`: the same of every call in the history of a console
-/

namespace ChipEight

variable {back : UInt16} {calls : List UInt16}

namespace Instruction

variable {pad : HexPad} {m : Machine} {i : Instruction}

theorem suffix_or_ret (h : back :: calls <:+ m.calls) :
    back :: calls <:+ i.callsAfter m ∨
      (i = .ret ∧ i.callsAfter m = calls ∧ i.counterAfter pad m = back) := by
  cases i with
  | ret =>
    show back :: calls <:+ m.calls.tail ∨ (_ ∧ m.calls.tail = calls ∧ m.calls.headD _ = back)
    cases hm : m.calls with
    | nil =>
      rw [hm, List.suffix_nil] at h
      cases h
    | cons top rest =>
      rw [hm] at h
      rcases List.suffix_cons_iff.mp h with heq | hrest
      · -- the note is on top: this is the return to it
        cases heq
        exact .inr ⟨rfl, rfl, rfl⟩
      · exact .inl hrest
  | call target => exact .inl (h.trans (List.suffix_cons _ _))
  | _ => exact .inl h

theorem eq_of_ofWord_eq_ret {w : UInt16} (h : ofWord w = .ret) : w = 0x00EE := by
  cases ofWord_eq_iff.mp h with
  | ret hw => exact hw

end Instruction

namespace Console

variable {c d : Console} {change : Change}

theorem calls_of_touched {m m' : Machine} (h : Touched m m') : m'.calls = m.calls := by
  cases h <;> rfl

theorem calls_of_halted {settings : Settings} {pad : HexPad} {cause : Fault} {m m' : Machine}
    (h : m.step settings pad = .halted cause m') : m'.calls = m.calls := by
  rw [Machine.eq_of_step_halted h]

/-- A change keeps what lies under the open calls, or it is the return to it. -/
theorem Moves.suffix_or_return (hm : c.Moves change d) (h : back :: calls <:+ c.machine.calls) :
    back :: calls <:+ d.machine.calls ∨
      (change = .word 0x00EE ∧ d.machine.calls = calls ∧ d.machine.counter = back) := by
  cases hm with
  | @word w m hf hp =>
    obtain ⟨-, rfl⟩ := Machine.perform_eq_done_iff.mp hp
    rcases Instruction.suffix_or_ret (i := Instruction.ofWord w) (m := c.machine.past) h with
      hs | ⟨hr, hs, hb⟩
    · exact .inl hs
    · exact .inr ⟨by rw [Instruction.eq_of_ofWord_eq_ret hr], hs, hb⟩
  | @halt cause m hs =>
    refine .inl ?_
    show back :: calls <:+ m.calls
    rw [calls_of_halted hs]
    exact h
  | timers => exact .inl h
  | host he =>
    rw [calls_of_touched (touched_handle he)]
    exact .inl h

/-- Changes keep what lies under the open calls for as long as none of them is the return to it. -/
theorem Path.suffix {xs : List Moment} (hp : Path c xs d) (h : back :: calls <:+ c.machine.calls)
    (hne : ∀ x ∈ xs, x.after.machine.calls.length ≠ calls.length) :
    back :: calls <:+ d.machine.calls := by
  induction hp with
  | nil => exact h
  | cons hm _ ih =>
    refine ih ?_ fun x hx => hne x (List.mem_cons_of_mem _ hx)
    rcases hm.suffix_or_return h with hs | ⟨-, hs, -⟩
    · exact hs
    · -- the list would be as short as before the call
      exact absurd (congrArg List.length hs) (hne _ List.mem_cons_self)

/-- A call notes the address after it. -/
theorem Moves.calls_of_call {word : UInt16} (hm : c.Moves (.word word) d)
    (hw : Word.family word = 0x2) :
    d.machine.calls = (c.machine.counter + 2) :: c.machine.calls ∧
      (c.machine.counter + 2).toNat = c.machine.counter.toNat + 2 := by
  obtain ⟨hf, -, rfl⟩ := hm.of_word
  refine ⟨?_, Machine.toNat_counter_past_of_fetch hf⟩
  show (Instruction.ofWord word).callsAfter c.machine.past = _
  rw [Instruction.ofWord_eq_of_spells (.call hw)]
  rfl

/-- After a call the address behind it stays on top of the calls that were open before, for as
long as more calls are open than before. The first change that leaves as many open as before is a
return: it leaves the same calls open, and the program goes on behind the call. -/
theorem return_of_call {events : List Event} {before after : List Moment} {call : Moment}
    {word : UInt16} (h : c.history events = before ++ call :: after)
    (hc : call.change = .word word) (hw : Word.family word = 0x2) :
    let calls := call.before.machine.calls
    let back := call.before.machine.counter + 2
    back.toNat = call.before.machine.counter.toNat + 2 ∧
    call.after.machine.calls = back :: calls ∧
    ∀ earlier x later, after = earlier ++ x :: later →
      (∀ y ∈ earlier, y.after.machine.calls.length ≠ calls.length) →
      (calls.length < x.after.machine.calls.length ∧ back :: calls <:+ x.after.machine.calls) ∨
        (x.change = .word 0x00EE ∧ x.after.machine.calls = calls ∧
          x.after.machine.counter = back) := by
  intro calls back
  -- the history is cut at the call, and what follows it at the change in question
  have hp := path_history c events
  rw [h] at hp
  obtain ⟨-, hm, hafter⟩ := hp.split
  rw [hc] at hm
  obtain ⟨hcalls, hback⟩ := hm.calls_of_call hw
  refine ⟨hback, hcalls, ?_⟩
  rintro earlier x later rfl hne
  obtain ⟨hearlier, hx, -⟩ := hafter.split
  have hs : back :: calls <:+ x.before.machine.calls :=
    hearlier.suffix ⟨[], hcalls.symm⟩ hne
  rcases hx.suffix_or_return hs with hs | hr
  · exact .inl ⟨hs.length_le, hs⟩
  · exact .inr hr

/-- A program that calls the subroutine at `0x204`, which returns at once. -/
def subroutine : Console where
  machine := { Machine.initial (.ofSeed 0) with
    memory := Memory.zero.overwrite programStart [0x22, 0x04, 0x00, 0x00, 0x00, 0xEE] }
  settings := { instructionsPerTick := 2 }
  pad := .released
  fault := none

theorem return_of_call_subroutine :
    let c := subroutine
    let called := c.withMachine (c.machine.after c.settings c.pad 0x2204)
    let returned := called.withMachine (called.machine.after c.settings c.pad 0x00EE)
    c.history [.tick] = [] ++ ⟨.word 0x2204, c, called⟩ ::
        [⟨.word 0x00EE, called, returned⟩,
          ⟨.timers, returned, returned.finish (.done returned.machine)⟩] ∧
      returned.machine.calls = [] ∧ returned.machine.counter = 0x202 := by
  intro c called returned
  have hm : c.machine.memory =
      Memory.zero.overwrite programStart [0x22, 0x04, 0x00, 0x00, 0x00, 0xEE] := rfl
  have hf : c.machine.fetch = .ok 0x2204 :=
    Machine.fetch_of_image (k := 0) hm rfl (by decide) (by decide)
  have hw : Instruction.ofWord 0x2204 = .call 0x204 := rfl
  have hm' : called.machine.memory = c.machine.memory := by
    show (Instruction.ofWord 0x2204).memoryAfter c.machine.past = _
    rw [hw]
    rfl
  have hr : called.machine.fetch = .ok 0x00EE :=
    Machine.fetch_of_image (k := 4) (hm'.trans hm) rfl (by decide) (by decide)
  have h : c.history [.tick] = [] ++ ⟨.word 0x2204, c, called⟩ ::
      [⟨.word 0x00EE, called, returned⟩,
        ⟨.timers, returned, returned.finish (.done returned.machine)⟩] := by
    show batchMoments 2 c ++ [] = _
    rw [batchMoments_succ 1 hf rfl, batchMoments_succ 0 hr rfl]
    rfl
  obtain ⟨-, -, hafter⟩ := return_of_call h rfl (by decide)
  rcases hafter [] _ _ rfl (by simp) with ⟨hlt, -⟩ | ⟨-, hs, hb⟩
  · cases hlt
  · exact ⟨h, hs, hb⟩

end Console

end ChipEight
