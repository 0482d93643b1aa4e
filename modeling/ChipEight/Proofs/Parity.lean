import Mathlib.Data.List.DropRight
import ChipEight.Proofs.Flips
import ChipEight.Proofs.History

/-!
# What is lit is what was drawn an odd number of times

Only two kinds of words reach the frame: `00E0` unlights it, and `Dxyn` flips the cells of its
sprite. So the frame is known from the words that were carried out since it was unlit last.

* `Moves.frame_eq`: what one change does to the frame
* `Path.frame_eq`: without a `00E0` on the way, the frame is flipped by all pixels that were sent
* `lit_iff_odd`: from the start of a console on, a lit cell was sent an odd number of pixels
-/

namespace ChipEight

namespace Moment

/-- Whether this moment unlights the frame. -/
def clears (x : Moment) : Bool :=
  match x.change with
  | .word w => w = 0x00E0
  | _ => false

/-- The cells that this moment sends pixels to. -/
def sent (x : Moment) : List Nat :=
  match x.change with
  | .word w =>
    if (Word.family w).val = 0xD then x.before.machine.sent (Word.x w) (Word.y w) (Word.n w) else []
  | _ => []

end Moment

/-- The moments since the frame was unlit last, or all of them if it never was. -/
def sinceClear (xs : List Moment) : List Moment := xs.rtakeWhile fun x => !x.clears

theorem sinceClear_append (xs : List Moment) (x : Moment) :
    sinceClear (xs ++ [x]) = if x.clears then [] else sinceClear xs ++ [x] := by
  rw [sinceClear, List.rtakeWhile_concat]
  cases x.clears <;> rfl

/-- Words of other families, and family `0` but for `00E0`, leave the frame as it is. -/
theorem Instruction.frameAfter_eq {w : UInt16} (hc : w ≠ 0x00E0) (hd : Word.family w ≠ 0xD)
    (m : Machine) : (ofWord w).frameAfter m = m.frame := by
  have hs := spells_ofWord w
  generalize ofWord w = i at hs
  cases hs with
  | clear h => exact absurd h hc
  | draw h => exact absurd h hd
  | _ => rfl

namespace Console

variable {c d : Console} {change : Change} {xs ys : List Moment}

/-- A console with the screen's frame. -/
def OnScreen (c : Console) : Prop := c.machine.frame.cols = 64 ∧ c.machine.frame.rows = 32

theorem frame_of_touched {m m' : Machine} (h : Touched m m') : m'.frame = m.frame := by
  cases h <;> rfl

theorem Moves.frame_eq (hm : c.Moves change d) (hs : c.OnScreen) :
    d.machine.frame =
      if Moment.clears ⟨change, c, d⟩ then Frame.screen
      else c.machine.frame.flips (Moment.sent ⟨change, c, d⟩) := by
  obtain ⟨hcols, hrows⟩ := hs
  cases hm with
  | @word w m hf hp =>
    obtain ⟨-, rfl⟩ := Machine.perform_eq_done_iff.mp hp
    show (Instruction.ofWord w).frameAfter c.machine.past =
      if decide (w = 0x00E0) then Frame.screen
      else c.machine.frame.flips (if (Word.family w).val = 0xD then _ else [])
    by_cases hclear : w = 0x00E0
    · subst hclear
      show Frame.blank c.machine.frame.cols c.machine.frame.rows = Frame.screen
      rw [hcols, hrows]
      rfl
    · rw [if_neg (by simpa using hclear)]
      by_cases hd : (Word.family w).val = 0xD
      · rw [if_pos hd, Instruction.ofWord_eq_of_spells (.draw (Fin.ext hd))]
        exact Machine.stamped_eq_flips (m := c.machine.past) hcols hrows _ _ _
      · rw [if_neg hd, Instruction.frameAfter_eq hclear fun h => hd (congrArg Fin.val h)]
        rfl
  | @halt cause m hs =>
    rw [Machine.eq_of_step_halted hs]
    rfl
  | timers => rfl
  | host he => exact frame_of_touched (touched_handle he)

theorem OnScreen.moves (hs : c.OnScreen) (hm : c.Moves change d) : d.OnScreen := by
  unfold OnScreen
  rw [hm.frame_eq hs]
  split
  · exact ⟨rfl, rfl⟩
  · rw [Frame.cols_flips, Frame.rows_flips]
    exact hs

/-! ## Runs -/

theorem Path.onScreen (h : Path c xs d) (hs : c.OnScreen) : d.OnScreen :=
  (h.invariant hs fun hc hm => hc.moves hm).1

/-- A run leaves the screen's size to the frame. -/
theorem OnScreen.run (hs : c.OnScreen) (events : List Event) : (c.run events).OnScreen :=
  (path_history c events).onScreen hs

theorem onScreen_start (settings : Settings) (random : Source) : (start settings random).OnScreen :=
  ⟨rfl, rfl⟩

theorem Path.frame_eq (h : Path c xs d) (hs : c.OnScreen) (hx : ∀ x ∈ xs, x.clears = false) :
    d.machine.frame = c.machine.frame.flips (xs.flatMap Moment.sent) := by
  induction h with
  | nil => rfl
  | @cons c next d change rest hm _ ih =>
    have hc : Moment.clears ⟨change, c, next⟩ = false := hx _ List.mem_cons_self
    have hn : next.machine.frame = c.machine.frame.flips (Moment.sent ⟨change, c, next⟩) := by
      rw [hm.frame_eq hs, hc]
      rfl
    rw [ih (hs.moves hm) fun x h => hx x (List.mem_cons_of_mem _ h), hn, List.flatMap_cons,
      Frame.flips_append]

/-- From an unlit screen on, the frame is flipped by what was sent since it was unlit last. -/
theorem Path.frame_eq_sinceClear (h : Path c xs d) (hc : c.machine.frame = Frame.screen) :
    d.machine.frame = Frame.screen.flips ((sinceClear xs).flatMap Moment.sent) := by
  -- on the latest change, since the moments in question are told from the end of the list
  induction xs using List.reverseRecOn generalizing d with
  | nil =>
    cases h
    exact hc
  | append_singleton xs x ih =>
    obtain ⟨hxs, hx⟩ := h.of_append
    have hs : (c.reached xs).OnScreen := hxs.onScreen (by rw [OnScreen, hc]; exact ⟨rfl, rfl⟩)
    cases hx with
    | @cons _ _ _ change _ hm hnil =>
      cases hnil
      rw [hm.frame_eq hs, sinceClear_append]
      split
      · rfl
      · rw [ih hxs, List.flatMap_append, Frame.flips_append, List.flatMap_singleton]

/-- At every moment of every run, the lit cells of the frame are those that were sent an odd number
of pixels since the frame was unlit last. In what order the pixels of a stretch without a `00E0`
are drawn makes no difference to the frame that it leaves. -/
theorem lit_iff_odd (settings : Settings) (random : Source) (events : List Event)
    (xs ys : List Moment) (h : (start settings random).history events = xs ++ ys) :
    let c := start settings random
    c.reached (c.history events) = c.run events ∧
    (∀ i, (c.reached xs).machine.frame.lit i = true ↔
      i < 2048 ∧ Odd (((sinceClear xs).flatMap Moment.sent).count i)) ∧
    ∀ us vs, xs = us ++ vs → (∀ x ∈ vs, x.clears = false) →
      ∀ cells, cells.Perm (vs.flatMap Moment.sent) →
        (c.reached xs).machine.frame = (c.reached us).machine.frame.flips cells := by
  intro c
  have hrun : Path c (c.history events) (c.run events) := path_history c events
  obtain ⟨hxs, -⟩ : Path c xs (c.reached xs) ∧ _ := (h ▸ hrun).of_append
  refine ⟨hrun.reached, ?_, ?_⟩
  · intro i
    rw [hxs.frame_eq_sinceClear rfl]
    by_cases hi : i < 2048
    · rw [Frame.lit_flips hi, show Frame.screen.lit i = false from Frame.lit_blank _ _ i,
        Bool.false_xor, decide_eq_true_eq]
      exact ⟨fun ho => ⟨hi, ho⟩, fun ho => ho.2⟩
    · have hle : ∀ f : Frame, f.cols * f.rows = 2048 → f.lit i = false := by
        intro f hf
        exact Frame.lit_of_le (by omega)
      rw [hle _ (by rw [Frame.cols_flips, Frame.rows_flips]; rfl)]
      exact ⟨nofun, fun ho => absurd ho.1 hi⟩
  · rintro us vs rfl hv cells hcells
    obtain ⟨hus, hvs⟩ := hxs.of_append
    have hs : (c.reached us).OnScreen := hus.onScreen ⟨rfl, rfl⟩
    rw [hvs.frame_eq hs hv, Frame.flips_perm hcells]

/-- A program that draws the top row of the glyph `0` in the corner of the screen. -/
theorem lit_iff_odd_glyph :
    let c := start { instructionsPerTick := 1 } (.ofSeed 0)
    let events := [.load [0xD0, 0x01], .tick]
    c.history events = c.history events ++ [] ∧
      (c.run events).machine.frame.lit 3 = true ∧ (c.run events).machine.frame.lit 4 = false := by
  intro c events
  let loaded := (c.load [0xD0, 0x01]).console
  let drawn := loaded.withMachine (loaded.machine.after loaded.settings loaded.pad 0xD001)
  have hm : loaded.machine.memory = Memory.initial.overwrite programStart [0xD0, 0x01] :=
    memory_load (by decide)
  have hf : loaded.machine.fetch = .ok 0xD001 :=
    Machine.fetch_of_image (k := 0) hm rfl (by decide) (by decide)
  have hhistory : c.history events =
      [⟨.host (.load [0xD0, 0x01]), c, loaded⟩, ⟨.word 0xD001, loaded, drawn⟩,
        ⟨.timers, drawn, drawn.finish (.done drawn.machine)⟩] := by
    show ⟨.host (.load [0xD0, 0x01]), c, loaded⟩ :: (batchMoments (0 + 1) loaded ++ []) = _
    rw [batchMoments_succ 0 hf rfl]
    rfl
  have hbyte : loaded.machine.memory.byteAt 0 = 0xF0 := by
    rw [hm, Memory.byteAt_overwrite, if_neg (by decide), Memory.initial, Memory.byteAt_overwrite,
      if_pos (by decide)]
    rfl
  have hsent : (sinceClear (c.history events)).flatMap Moment.sent = [0, 1, 2, 3] := by
    rw [hhistory]
    show loaded.machine.sent 0x0 0x0 1 ++ [] = _
    unfold Machine.sent
    show ((List.range 8).filter fun j =>
      loaded.machine.memory.byteAt 0 &&& (0x80 >>> UInt8.ofNat j) ≠ 0).map _ ++ [] ++ [] = _
    rw [hbyte]
    rfl
  have happ : c.history events = c.history events ++ [] := (List.append_nil _).symm
  obtain ⟨hrun, hlit, -⟩ := lit_iff_odd { instructionsPerTick := 1 } (.ofSeed 0) events _ _ happ
  change c.reached (c.history events) = c.run events at hrun
  change ∀ i, (c.reached (c.history events)).machine.frame.lit i = true ↔
    i < 2048 ∧ Odd (((sinceClear (c.history events)).flatMap Moment.sent).count i) at hlit
  -- from here on the console is only a name, with nothing to be computed
  clear_value c events
  rw [hrun, hsent] at hlit
  refine ⟨happ, ?_, ?_⟩
  · exact (hlit 3).mpr (by decide)
  · rw [← Bool.not_eq_true, hlit 4]
    decide

end Console

end ChipEight
