import ChipEight.Picture.Window
import ChipEight.Proofs.Hush
import ChipEight.Proofs.Parity

/-!
# The window shows the last completed frame

A frame goes through four layouts on its way to the window: cells in rows, three bytes to a cell,
rows of a texture with padding, squares of pixels. In the end a pixel shows the cell of its square.
A console sends its frame out at the end of each tick that succeeds and at no other time, and a
window keeps nothing of what it showed before.

* `getElem?_raster`, `shows_draw`: what the bytes of a raster and of a window are
* `pictures_handle`: an event sends out the frame it completes, if it completes one
* `receiveAll_eq`: after signals a window is as it is after the last picture among them
* `window_shows_last_completed`: the same for whole runs
-/

namespace ChipEight

/-! ## Rasters -/

namespace Frame

variable {f g : Frame}

theorem getElem?_raster {x y ch : Nat} (hx : x < f.cols) (hy : y < f.rows) (hch : ch < channels) :
    f.raster[channels * (x + y * f.cols) + ch]? = some (brightness (f.isSet x y)) := by
  have hlt : channels * (x + y * f.cols) + ch < f.raster.size := by
    rw [size_raster]
    exact channel_lt (number_lt hx hy) hch
  have hbyte := f.getD_raster (channels * (x + y * f.cols) + ch)
  rw [channel_div hch, ← isSet_eq hx hy] at hbyte
  rw [← hbyte, Array.getD_eq_getD_getElem?, Array.getElem?_eq_getElem hlt, Option.getD_some]

theorem brightness_inj {a b : Bool} (h : brightness a = brightness b) : a = b := by
  cases a <;> cases b <;> first | rfl | exact absurd h (by decide)

/-- A frame can be told from its size and its raster. -/
theorem eq_of_raster_eq (hc : g.cols = f.cols) (hr : g.rows = f.rows) (h : g.raster = f.raster) :
    g = f := by
  refine ext_lit hc hr fun i _ => brightness_inj ?_
  have hi := congrArg (fun raster => Array.getD raster (channels * i) 0) h
  simpa only [getD_raster, Nat.mul_div_cancel_left i (show 0 < channels by decide)] using hi

end Frame

/-! ## Drawing -/

namespace Window

variable {w : Window} {f g : Frame}

/-- Whether a window shows a frame in squares of `scale` by `scale` pixels: every channel of a
pixel is 255 where the cell of its square is lit, and 0 where it is not. -/
def Shows (w : Window) (scale : Nat) (f : Frame) : Prop :=
  ∀ X Y ch, X < f.cols * scale → Y < f.rows * scale → ch < 3 →
    w.bytes[3 * (X + Y * (f.cols * scale)) + ch]? =
      some (if f.isSet (X / scale) (Y / scale) then 255 else 0)

/-- Whether a window is black all over. -/
def Dark (w : Window) : Prop := ∀ b ∈ w.bytes, b = 0

theorem dark_of_shown (h : w.shown = none) : w.Dark := by
  intro b hb
  obtain ⟨i, rfl⟩ := Array.mem_ofFn.mp hb
  simp [channel, h]

theorem getElem?_bytes {X Y ch : Nat} (hX : X < w.width) (hY : Y < w.height)
    (hch : ch < channels) :
    w.bytes[channels * (X + Y * w.width) + ch]? = some (w.channel X Y ch) := by
  have hx : (X + Y * w.width) % w.width = X := by
    rw [Nat.add_mul_mod_self_right, Nat.mod_eq_of_lt hX]
  have hy : (X + Y * w.width) / w.width = Y := by
    rw [Nat.add_mul_div_right _ _ (Nat.zero_lt_of_lt hX), Nat.div_eq_of_lt hX, Nat.zero_add]
  rw [bytes, Array.getElem?_ofFn, dif_pos (channel_lt (Frame.number_lt hX hY) hch)]
  simp only [channel_div hch, channel_mod hch, hx, hy]

theorem drawable_iff : w.drawable = true ↔ 0 < w.cols ∧ 0 < w.rows := by
  simp [drawable, Nat.pos_iff_ne_zero]

/-- A window without columns or rows is no place to draw. -/
theorem draw_of_empty (h : w.cols = 0 ∨ w.rows = 0) (f : Frame) : w.draw f = w := by
  refine draw_of_not_drawable (Bool.eq_false_iff.mpr fun hd => ?_) f
  obtain ⟨hc, hr⟩ := drawable_iff.mp hd
  omega

/-- On a window that can be drawn on, a pixel shows the cell of its square. -/
theorem channel_draw {X Y ch : Nat} (hs : 0 < w.scale) (hd : w.drawable = true)
    (hc : f.cols = w.cols) (hr : f.rows = w.rows) (hX : X / w.scale < w.cols)
    (hY : Y / w.scale < w.rows) (hch : ch < channels) :
    (w.draw f).channel X Y ch = Frame.brightness (f.isSet (X / w.scale) (Y / w.scale)) := by
  obtain ⟨hcols, hrows⟩ := drawable_iff.mp hd
  have hsize : f.raster.size = channels * (w.cols * w.rows) := by rw [f.size_raster, hc, hr]
  rw [draw_of_drawable hd]
  show (w.fresh.upload f.raster).channel (under w.cols (max 1 (w.cols * w.scale)) X)
    (under w.rows (max 1 (w.rows * w.scale)) Y) ch = _
  rw [under_eq hcols hs, under_eq hrows hs, w.fresh.channel_upload hsize hX hY hch, ← hc,
    Array.getD_eq_getD_getElem?, Frame.getElem?_raster (hc ▸ hX) (hr ▸ hY) hch, Option.getD_some]

theorem shows_draw (hs : 0 < w.scale) (hc : f.cols = w.cols) (hr : f.rows = w.rows) :
    (w.draw f).Shows w.scale f := by
  intro X Y ch hX hY hch
  rw [hc] at hX ⊢
  rw [hr] at hY
  have hX' : X / w.scale < w.cols := Nat.div_lt_of_lt_mul (by rwa [Nat.mul_comm])
  have hY' : Y / w.scale < w.rows := Nat.div_lt_of_lt_mul (by rwa [Nat.mul_comm])
  have hd : w.drawable = true :=
    drawable_iff.mpr ⟨Nat.zero_lt_of_lt hX', Nat.zero_lt_of_lt hY'⟩
  have hwidth : w.width = w.cols * w.scale := Nat.max_eq_right (Nat.zero_lt_of_lt hX)
  have hheight : w.height = w.rows * w.scale := Nat.max_eq_right (Nat.zero_lt_of_lt hY)
  have hbyte : (w.draw f).bytes[channels * (X + Y * (w.draw f).width) + ch]? = _ :=
    getElem?_bytes (by rwa [width_draw, hwidth]) (by rwa [height_draw, hheight]) hch
  rw [width_draw, hwidth, channel_draw hs hd hc hr hX' hY' hch] at hbyte
  exact hbyte

theorem draw_draw (w : Window) (g f : Frame) : (w.draw g).draw f = w.draw f := by
  by_cases hd : w.drawable = true
  · rw [draw_of_drawable hd, draw_of_drawable hd]
    exact if_pos hd
  · rw [draw_of_not_drawable (Bool.eq_false_iff.mpr hd) g]

/-- Of all that it was sent, a window shows the last picture. -/
theorem receiveAll_eq (w : Window) (signals : List Signal) :
    w.receiveAll signals = ((signals.filterMap Signal.picture?).getLast?).elim w w.draw := by
  induction signals using List.reverseRecOn with
  | nil => rfl
  | append_singleton signals signal ih =>
    have hlast : w.receiveAll (signals ++ [signal]) = (w.receiveAll signals).receive signal := by
      simp [receiveAll]
    rw [hlast, ih, List.filterMap_append]
    cases signal with
    | picture f =>
      cases h : (signals.filterMap Signal.picture?).getLast? with
      | none => simp [Signal.picture?, receive]
      | some g => simp [Signal.picture?, receive, draw_draw]
    | toneOn | toneOff | gain => simp [Signal.picture?, receive]

end Window

/-! ## Completed frames -/

namespace Console

variable {c : Console} {event : Event}

/-- The frame at the end of an event, if that is a tick that succeeds. -/
def completes (c : Console) (event : Event) : Option Frame :=
  match event, (c.handle event).result with
  | .tick, .ok () => some (c.handle event).console.machine.frame
  | _, _ => none

/-- The frames at the ends of the ticks that succeed, in order. -/
def completed (c : Console) : List Event → List Frame
  | [] => []
  | event :: rest => (c.completes event).toList ++ (c.handle event).console.completed rest

theorem completes_of_ne (he : event ≠ .tick) : c.completes event = none := by
  unfold completes
  split
  · exact absurd rfl he
  · rfl

theorem completes_tick_of_ok {d : Console} {signals : List Signal}
    (h : c.tick = ⟨.ok (), d, signals⟩) : c.completes .tick = some d.machine.frame := by
  unfold completes
  rw [show c.handle .tick = _ from h]

theorem completes_tick_of_error {d : Console} {cause : Fault} {signals : List Signal}
    (h : c.tick = ⟨.error cause, d, signals⟩) : c.completes .tick = none := by
  unfold completes
  rw [show c.handle .tick = _ from h]

theorem pictures_handle (c : Console) (event : Event) :
    (c.handle event).signals.filterMap Signal.picture? = (c.completes event).toList := by
  by_cases he : event = .tick
  · subst he
    have htick := tick_eq_report c
    cases hf : c.tick.console.fault with
    | some cause =>
      rw [report_of_fault hf] at htick
      rw [completes_tick_of_error htick, show c.handle .tick = _ from htick]
      rfl
    | none =>
      rw [report_of_no_fault hf] at htick
      rw [completes_tick_of_ok htick, show c.handle .tick = _ from htick]
      exact filterMap_output c.tick.console
  · rw [completes_of_ne he]
    refine List.filterMap_eq_nil_iff.mpr fun signal hs => ?_
    obtain ⟨_, rfl⟩ := gain_of_mem_signals he hs
    rfl

theorem pictures_eq_completed (c : Console) (events : List Event) :
    c.pictures events = c.completed events := by
  induction events generalizing c with
  | nil => rfl
  | cons event rest ih =>
    rw [completed, ← ih, ← pictures_handle, pictures, signals, List.filterMap_append]
    rfl

theorem OnScreen.completed (hs : c.OnScreen) {events : List Event} {f : Frame}
    (hf : f ∈ c.completed events) : f.cols = 64 ∧ f.rows = 32 := by
  induction events generalizing c with
  | nil => cases hf
  | cons event rest ih =>
    have hnext : (c.handle event).console.OnScreen := hs.run [event]
    rcases List.mem_append.mp hf with h | h
    · unfold completes at h
      split at h
      · rw [List.mem_singleton.mp h]
        exact hnext
      · cases h
    · exact ih hnext h

/-- The window shows the last completed frame. A frame of the window's size is drawn by way of a
raster of three bytes for each cell, from which the frame can be told. Whatever the pitch of the
texture and whatever it held, each channel of each pixel then tells whether the cell under the
pixel is lit. A window without columns or rows stays as it is. And after any events that a new
console is given, a window of 64 by 32 cells that was black at first shows the frame as it was at
the end of the last tick that succeeded, and is black still if none did. -/
theorem window_shows_last_completed (w : Window) (hs : 0 < w.scale) :
    (∀ f : Frame, f.cols = w.cols → f.rows = w.rows →
      f.raster.size = 3 * w.cols * w.rows ∧
      (∀ x y ch, x < w.cols → y < w.rows → ch < 3 →
        f.raster[3 * (x + y * w.cols) + ch]? = some (if f.isSet x y then 255 else 0)) ∧
      (∀ g : Frame, g.cols = w.cols → g.rows = w.rows → g.raster = f.raster → g = f) ∧
      (w.draw f).Shows w.scale f ∧
      (w.cols = 0 ∨ w.rows = 0 → w.draw f = w)) ∧
    (w.cols = 64 → w.rows = 32 → w.shown = none →
      ∀ settings random events,
        let c := start settings random
        let shown := w.receiveAll (c.signals events)
        shown.bytes.size = 3 * ((64 * w.scale) * (32 * w.scale)) ∧
        (∀ f, (c.completed events).getLast? = some f →
          f.cols = 64 ∧ f.rows = 32 ∧ shown.Shows w.scale f) ∧
        (c.completed events = [] → shown.Dark)) := by
  refine ⟨fun f hc hr => ⟨?_, ?_, ?_, ?_, ?_⟩, ?_⟩
  · rw [f.size_raster, hc, hr, Nat.mul_assoc]
    rfl
  · intro x y ch hx hy hch
    rw [← hc]
    exact Frame.getElem?_raster (hc ▸ hx) (hr ▸ hy) hch
  · intro g hgc hgr h
    exact Frame.eq_of_raster_eq (hgc.trans hc.symm) (hgr.trans hr.symm) h
  · exact Window.shows_draw hs hc hr
  · intro h
    exact Window.draw_of_empty h f
  · intro hc hr hblack settings random events c shown
    have hshown : shown = ((c.completed events).getLast?).elim w w.draw := by
      rw [← pictures_eq_completed]
      exact w.receiveAll_eq (c.signals events)
    have hwidth : w.width = 64 * w.scale := by
      rw [Window.width, hc, Nat.max_eq_right (Nat.mul_pos (by decide) hs)]
    have hheight : w.height = 32 * w.scale := by
      rw [Window.height, hr, Nat.max_eq_right (Nat.mul_pos (by decide) hs)]
    refine ⟨?_, ?_, ?_⟩
    · rw [← hwidth, ← hheight, hshown, Window.size_bytes]
      cases (c.completed events).getLast? with
      | none => rfl
      | some f =>
        show channels * ((w.draw f).width * (w.draw f).height) = _
        rw [Window.width_draw, Window.height_draw]
        rfl
    · intro f hf
      obtain ⟨hcols, hrows⟩ := (onScreen_start settings random).completed (List.mem_of_getLast? hf)
      rw [hshown, hf]
      exact ⟨hcols, hrows, Window.shows_draw hs (hcols.trans hc.symm) (hrows.trans hr.symm)⟩
    · intro hnone
      rw [hshown, hnone]
      exact Window.dark_of_shown hblack

/-- A program that draws the top row of the glyph `0` in the corner and then returns from nowhere.
The tick that fails leaves the row on show, in squares of two by two pixels. -/
theorem window_shows_last_completed_glyph :
    let w := Window.black 64 32 2
    let c := start { instructionsPerTick := 1 } (.ofSeed 0)
    let events := [.load [0xD0, 0x01, 0x00, 0xEE], .tick, .tick]
    let shown := w.receiveAll (c.signals events)
    0 < w.scale ∧ w.cols = 64 ∧ w.rows = 32 ∧ w.shown = none ∧
      (c.run events).fault = some .emptyCallStack ∧
      shown.bytes[3 * (7 + 1 * 128) + 2]? = some 255 ∧
      shown.bytes[3 * (8 + 1 * 128)]? = some 0 := by
  intro w c events shown
  let loaded := (c.load [0xD0, 0x01, 0x00, 0xEE]).console
  let drawn := loaded.machine.after loaded.settings loaded.pad 0xD001
  let ticked := loaded.finish (.done drawn)
  have hm : loaded.machine.memory =
      Memory.initial.overwrite programStart [0xD0, 0x01, 0x00, 0xEE] := memory_load (by decide)
  have hf : loaded.machine.fetch = .ok 0xD001 :=
    Machine.fetch_of_image (k := 0) hm rfl (by decide) (by decide)
  have hm' : drawn.memory = loaded.machine.memory :=
    Machine.memory_after (i := .draw 0x0 0x0 0x1) rfl
  have hf' : ticked.machine.fetch = .ok 0x00EE :=
    Machine.fetch_of_image (k := 2) (hm'.trans hm) rfl (by decide) (by decide)
  have hdone : loaded.runBatch = .done drawn := by
    show loaded.machine.batch loaded.settings loaded.pad (0 + 1) = _
    rw [Machine.batch, Machine.step_eq_done_iff.mpr ⟨_, hf, rfl, rfl⟩]
    rfl
  have hhalted : ticked.runBatch = .halted .emptyCallStack ticked.machine.past := by
    show ticked.machine.batch ticked.settings ticked.pad (0 + 1) = _
    rw [Machine.batch, Machine.step_eq_halted_iff.mpr (.inr ⟨_, hf', rfl, rfl⟩)]
  have hfirst : loaded.tick = ⟨.ok (), ticked, ticked.output⟩ := by
    rw [tick_of_runs rfl rfl, hdone]
  have hsecond : ticked.tick = ⟨.error .emptyCallStack,
      ticked.finish (.halted .emptyCallStack ticked.machine.past), []⟩ := by
    rw [tick_of_runs rfl rfl, hhalted]
  have hcompleted : c.completed events = [ticked.machine.frame] := by
    have hnext : loaded.completed [.tick, .tick] =
        (loaded.completes .tick).toList ++ (loaded.tick.console.completes .tick).toList :=
      congrArg _ (List.append_nil _)
    have hload : c.completes (.load [0xD0, 0x01, 0x00, 0xEE]) = none :=
      completes_of_ne Event.noConfusion
    rw [completed, hload]
    show loaded.completed [.tick, .tick] = _
    rw [hnext, completes_tick_of_ok hfirst, hfirst, completes_tick_of_error hsecond]
    rfl
  have hbyte : loaded.machine.memory.byteAt 0 = 0xF0 := by
    rw [hm, Memory.byteAt_overwrite, if_neg (by decide), Memory.initial, Memory.byteAt_overwrite,
      if_pos (by decide)]
    rfl
  have hsent : loaded.machine.sent 0x0 0x0 1 = [0, 1, 2, 3] := by
    have hcolumns : ((List.range 8).filter fun j =>
        (0xF0 : UInt8) &&& (0x80 >>> UInt8.ofNat j) ≠ 0) = [0, 1, 2, 3] := rfl
    have hcorner : (loaded.machine.registers.get 0x0).toNat = 0 := rfl
    show ((List.range 8).filter fun j =>
      loaded.machine.memory.byteAt 0 &&& (0x80 >>> UInt8.ofNat j) ≠ 0).map
        (fun j => screenCell ((loaded.machine.registers.get 0x0).toNat + j)
          ((loaded.machine.registers.get 0x0).toNat + 0)) ++ [] = _
    rw [hbyte, hcolumns, hcorner]
    rfl
  have hframe : ticked.machine.frame = Frame.screen.flips [0, 1, 2, 3] := by
    rw [← hsent]
    exact Machine.stamped_eq_flips (m := loaded.machine.past) rfl rfl 0x0 0x0 1
  have hset : ∀ x < 64, ticked.machine.frame.isSet x 0 = decide (Odd ([0, 1, 2, 3].count x)) := by
    intro x hx
    have hlt : x < 2048 := Nat.lt_trans hx (by decide)
    rw [hframe, Frame.isSet_eq (by rwa [Frame.cols_flips]) (by rw [Frame.rows_flips]; decide),
      Nat.zero_mul, Nat.add_zero, Frame.lit_flips hlt, Frame.screen, Frame.lit_blank,
      Bool.false_xor]
  have hfault : (c.run events).fault = some .emptyCallStack := by
    show (loaded.tick.console.tick).console.fault = _
    rw [hfirst, hsecond]
    rfl
  obtain ⟨-, hruns⟩ := window_shows_last_completed w (by decide)
  obtain ⟨-, hlast, -⟩ := hruns rfl rfl rfl { instructionsPerTick := 1 } (.ofSeed 0) events
  obtain ⟨hcols, hrows, hshows⟩ := hlast ticked.machine.frame (by rw [hcompleted]; rfl)
  have hpixel : ∀ X ch, X < 128 → ch < 3 → shown.bytes[3 * (X + 1 * 128) + ch]? =
      some (if decide (Odd ([0, 1, 2, 3].count (X / 2))) then 255 else 0) := by
    intro X ch hX hch
    have h := hshows X 1 ch (by rwa [hcols]) (by rw [hrows]; decide) hch
    rw [hcols, show w.scale = 2 from rfl, hset (X / 2) (by omega)] at h
    exact h
  exact ⟨by decide, rfl, rfl, rfl, hfault, hpixel 7 2 (by decide) (by decide),
    hpixel 8 0 (by decide) (by decide)⟩

end Console

end ChipEight
