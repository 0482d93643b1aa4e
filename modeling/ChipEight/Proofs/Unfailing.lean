import ChipEight.Proofs.Checked
import ChipEight.Proofs.Toggling

/-!
# Checks never fail

On a machine that events can lead to, no check of the checked machine fails, and each operation
comes to what the unchecked one does. Some of the checks hold by the widths of their operands alone.
The others rest on what every change of a console keeps:

* a jump goes to three digits, so an offset does not take it past sixteen bits
* the frame has the size of the screen, so the number that a pixel lands on stays small
* the register that awaits a key was named by a digit, so the key that ends the wait has a place

Main results:

* `toggle_eq_some`, `drawRows_eq_some`: pixels and sprites
* `execute_eq_some`: the instruction of any word
* `batch_eq_some`, `handle_eq_some`: batches and events, on bounded machines
* `checks_never_fail`: every run of every program
-/

namespace ChipEight

namespace Checked

/-! ## Frames -/

/-- A coordinate past the edge is not less than the dimension that is taken from it. -/
theorem pullBack_eq_some (dimension coordinate : Nat) :
    pullBack dimension coordinate = some (Frame.pullBack dimension coordinate) := by
  unfold pullBack Frame.pullBack
  split
  · next h => exact if_pos (Nat.le_of_lt h)
  · rfl

theorem isSet_eq_some {f : Frame} (h : f.cols * f.rows ≤ UInt64.size) (x y : Nat) :
    isSet f x y = some (f.isSet x y) := by
  unfold isSet
  by_cases hin : x < f.cols ∧ y < f.rows
  · have hlt : x + y * f.cols < f.cols * f.rows := Frame.number_lt hin.1 hin.2
    have hcell : x + y * f.cols < f.cells.size := by rwa [f.size_cells]
    have hrow : fit64 (y * f.cols) = some (y * f.cols) := fit64_eq_some (by omega)
    have hfit : fit64 (x + y * f.cols) = some (x + y * f.cols) := fit64_eq_some (by omega)
    rw [if_pos hin, Frame.isSet_eq hin.1 hin.2, hrow]
    simp [hfit, Frame.lit, hcell]
  · have hout : f.isSet x y = false := by
      rw [Frame.isSet, ← Bool.decide_and, decide_eq_false hin, Bool.false_and]
    rw [if_neg hin, hout]

theorem toggle_eq_some {f : Frame} {x y : Nat} (h : f.target x y < UInt64.size) :
    toggle f x y = some (f.toggle x y) := by
  have hrow : Frame.pullBack f.rows y * f.cols < UInt64.size :=
    Nat.lt_of_le_of_lt (Nat.le_add_left _ _) h
  have hcell : fit64 (Frame.pullBack f.cols x + Frame.pullBack f.rows y * f.cols) =
      some (f.target x y) := fit64_eq_some h
  simp only [toggle, pullBack_eq_some, Option.bind_eq_bind, Option.bind_some, fit64_eq_some hrow,
    hcell]
  rfl

/-! ## Sprites -/

/-- A fold whose steps never give up, from a start with a property that they keep. -/
theorem foldlM_eq_some {α β : Type} {P : β → Prop} {g : β → α → Option β} {h : β → α → β}
    {l : List α} {b : β} (hb : P b)
    (hstep : ∀ b a, P b → a ∈ l → g b a = some (h b a) ∧ P (h b a)) :
    l.foldlM g b = some (l.foldl h b) ∧ P (l.foldl h b) := by
  induction l generalizing b with
  | nil => exact ⟨rfl, hb⟩
  | cons a rest ih =>
    obtain ⟨hg, hp⟩ := hstep b a hb List.mem_cons_self
    obtain ⟨hrest, hlast⟩ := ih hp fun b a hb ha => hstep b a hb (List.mem_cons_of_mem _ ha)
    exact ⟨by simp [List.foldlM_cons, hg, hrest], hlast⟩

/-- Toggles one pixel of a stamp. -/
def stampPixel (drawn : Frame × Bool) (pixel : Nat × Nat) : Frame × Bool :=
  ((drawn.1.toggle pixel.1 pixel.2).1, drawn.2 || (drawn.1.toggle pixel.1 pixel.2).2)

/-- Whether a frame that is drawn on has the size of the screen. -/
def OnScreen (drawn : Frame × Bool) : Prop := drawn.1.cols = 64 ∧ drawn.1.rows = 32

variable {x y r col : Nat} {byte : UInt8} {drawn : Frame × Bool}

theorem drawPixel_eq_some (hd : OnScreen drawn) (hx : x < 0x100) (hy : y + r < 0x200)
    (hcol : col < 8) :
    drawPixel x y (byte, r) drawn col =
      some (if Sprite.hasPixel byte col then stampPixel drawn (x + col, y + r) else drawn) := by
  have hsize : UInt64.size = 0x10000000000000000 := rfl
  have htarget : drawn.1.target (x + col) (y + r) < UInt64.size := by
    rw [Frame.target_eq_landing, hd.1]
    exact landing_lt_size (by omega) (by omega) (by omega)
  have hbit : Sprite.hasPixel byte col = true ↔ byte &&& (0x80 >>> UInt8.ofNat col) ≠ 0 :=
    Sprite.hasPixel_iff hcol
  simp only [drawPixel, mask_eq_some hcol, Option.bind_eq_bind, Option.bind_some]
  by_cases hzero : byte &&& (0x80 >>> UInt8.ofNat col) = 0
  · rw [if_pos hzero, if_neg fun hset => hbit.mp hset hzero]
    rfl
  · have hxcol : fit64 (x + col) = some (x + col) := fit64_eq_some (by omega)
    have hyrow : fit64 (y + r) = some (y + r) := fit64_eq_some (by omega)
    rw [if_neg hzero, if_pos (hbit.mpr hzero), hxcol, hyrow]
    simp only [Option.bind_some, toggle_eq_some htarget]
    rfl

/-- A row of a sprite is drawn as its pixels are, and leaves the size of the frame. -/
theorem drawRow_eq_some (byte : UInt8) (hd : OnScreen drawn) (hx : x < 0x100)
    (hy : y + r < 0x200) :
    (List.range 8).foldlM (drawPixel x y (byte, r)) drawn =
        some ((Sprite.rowPixels x (y + r) byte).foldl stampPixel drawn) ∧
      OnScreen ((Sprite.rowPixels x (y + r) byte).foldl stampPixel drawn) := by
  rw [Sprite.rowPixels, List.foldl_map, List.foldl_filter]
  refine foldlM_eq_some hd fun drawn col hd hcol => ?_
  refine ⟨drawPixel_eq_some hd hx hy (List.mem_range.mp hcol), ?_⟩
  cases Sprite.hasPixel byte col with
  | true => exact hd
  | false => exact hd

/-- Rows are drawn one after the other. The first of them has the number `k` in its sprite. -/
theorem drawRowsFrom_eq_some {rows : List UInt8} {k : Nat} (hd : OnScreen drawn) (hx : x < 0x100)
    (hy : y < 0x100) (hk : k + rows.length ≤ 0xF) :
    (rows.zipIdx k).foldlM (fun drawn row => (List.range 8).foldlM (drawPixel x y row) drawn)
      drawn = some ((Sprite.pixels x (y + k) rows).foldl stampPixel drawn) := by
  induction rows generalizing k drawn with
  | nil => rfl
  | cons byte rest ih =>
    rw [List.length_cons] at hk
    obtain ⟨hrow, hnext⟩ := drawRow_eq_some byte hd hx (show y + k < 0x200 by omega)
    rw [List.zipIdx_cons, List.foldlM_cons, hrow, Sprite.pixels, List.foldl_append]
    exact ih hnext (by omega)

theorem drawRows_eq_some {f : Frame} {rows : List UInt8} (hc : f.cols = 64) (hr : f.rows = 32)
    (hx : x < 0x100) (hy : y < 0x100) (hrows : rows.length ≤ 0xF) :
    drawRows f x y rows = some (f.stamp (Sprite.pixels x y rows)) :=
  drawRowsFrom_eq_some (k := 0) (show OnScreen (f, false) from ⟨hc, hr⟩) hx hy (by omega)

/-! ## Instructions -/

variable {settings : Settings} {pad : HexPad} {m : Machine}

theorem range_eq_some {start count : Nat} (h : start < 0x10000) (hcount : count ≤ 0x10) :
    range start count = some (if memorySize < start + count then .error (Memory.outside start)
      else .ok (start + count)) := by
  have hsize : UInt64.size = 0x10000000000000000 := rfl
  have hstop : fit64 (start + count) = some (start + count) := fit64_eq_some (by omega)
  rw [range, hstop]
  rfl

/-- A range from the index on halts the machine as an obstacle does, or it is one of memory. -/
theorem fromIndex_eq_some {count : Nat} {next : Nat → Option Outcome} {done : Machine}
    (hcount : count ≤ 0x10)
    (hnext : m.index.toNat + count ≤ memorySize →
      next (m.index.toNat + count) = some (.done done)) :
    fromIndex m count next =
      some (match m.reach? count with
        | some cause => .halted cause m
        | none => .done done) := by
  rw [fromIndex, range_eq_some m.index.toNat_lt hcount, Machine.reach?]
  by_cases h : m.index.toNat + count ≤ memorySize
  · rw [if_neg (Nat.not_lt.mpr h), if_pos h]
    exact hnext h
  · rw [if_pos (Nat.lt_of_not_le h), if_neg h]
    rfl

theorem length_pointed_digit (m : Machine) (d : Fin 16) : (m.pointed d).length = d := by
  simp [Machine.pointed]

/-- The rows of a sprite pass through a buffer that has room for all of them. -/
theorem exists_sprite (m : Machine) (height : Fin 16) :
    ∃ sprite : Vector UInt8 0xF,
      copy (Vector.replicate 0xF 0) 0 height (m.pointed height) = some sprite ∧
      slice sprite 0 height = some (m.pointed height) := by
  have hlen := length_pointed_digit m height
  have hroom : (m.pointed height).length ≤ 0xF := by omega
  have hcopy := exists_copy (Vector.replicate 0xF 0) hroom
  rwa [hlen] at hcopy

theorem jumpOffset_fits {base : UInt16} (h : base.toNat < 0x1000) (offset : UInt8) :
    fit16 (base.toNat + offset.toNat) = some (base + offset.toUInt16) := by
  have hoffset := offset.toNat_lt
  have hsize : UInt16.size = 0x10000 := rfl
  rw [fit16_eq_some (by omega)]
  simp [UInt16.ofNat_add]

theorem glyph_fits (digit : UInt8) :
    fit16 (digit.toNat * Font.glyphRows) =
      some (digit.toUInt16 * UInt16.ofNat Font.glyphRows) := by
  have hdigit := digit.toNat_lt
  have hlt : digit.toNat * Font.glyphRows < UInt16.size := by
    show digit.toNat * 5 < 0x10000
    omega
  rw [fit16_eq_some hlt]
  simp [UInt16.ofNat_mul]

theorem count_fits (x : Register) : fit64 (x + 1) = some (x.val + 1) := by
  have hsize : UInt64.size = 0x10000000000000000 := rfl
  exact fit64_eq_some (by omega)

/-- The rows of a sprite go from memory through the buffer to the screen. -/
theorem draw_eq_some (hc : m.frame.cols = 64) (hr : m.frame.rows = 32) (x y : Register)
    (height : Fin 16) :
    execute settings pad m (.draw x y height) =
      some ((Instruction.draw x y height).execute settings pad m) := by
  have hlen := length_pointed_digit m height
  have hrows : drawRows m.frame (m.registers.get x).toNat (m.registers.get y).toNat
      (m.pointed height) = some (m.stamped x y height) :=
    drawRows_eq_some hc hr (UInt8.toNat_lt _) (UInt8.toNat_lt _) (by omega)
  obtain ⟨sprite, hcopy, hslice⟩ := exists_sprite m height
  rw [Instruction.execute_eq]
  simp only [execute, get_register, Option.bind_eq_bind, Option.bind_some]
  refine fromIndex_eq_some (by omega) fun hfit => ?_
  have hsource : slice m.memory.bytes m.index.toNat (m.index.toNat + height) =
      some (m.pointed height) := slice_memory hfit
  simp only [hsource, hcopy, hslice, hrows, set_flag, Option.bind_some]
  rfl

theorem storeDecimal_eq_some (m : Machine) (x : Register) :
    execute settings pad m (.storeDecimal x) =
      some ((Instruction.storeDecimal x).execute settings pad m) := by
  rw [Instruction.execute_eq]
  simp only [execute, get_register, Option.bind_eq_bind, Option.bind_some]
  refine fromIndex_eq_some (by decide : 3 ≤ 0x10) fun hfit => ?_
  rw [copy_memory m.memory hfit]
  rfl

theorem storeRegisters_eq_some (m : Machine) (x : Register) :
    execute settings pad m (.storeRegisters x) =
      some ((Instruction.storeRegisters x).execute settings pad m) := by
  have hlen := Instruction.length_stored m.registers x
  rw [Instruction.execute_eq]
  simp only [execute, count_fits, slice_registers, Option.bind_eq_bind, Option.bind_some]
  refine fromIndex_eq_some (by omega) fun hfit => ?_
  rw [← hlen] at hfit
  have hcopy := copy_memory m.memory hfit
  rw [hlen] at hcopy
  rw [hcopy]
  rfl

theorem loadRegisters_eq_some (m : Machine) (x : Register) :
    execute settings pad m (.loadRegisters x) =
      some ((Instruction.loadRegisters x).execute settings pad m) := by
  have hlen : (m.pointed (x + 1)).length = x + 1 := by simp [Machine.pointed]
  have hcopy := copy_registers m.registers (show (m.pointed (x + 1)).length ≤ 16 by omega)
  rw [hlen] at hcopy
  rw [Instruction.execute_eq]
  simp only [execute, count_fits, Option.bind_eq_bind, Option.bind_some]
  refine fromIndex_eq_some (by omega) fun hfit => ?_
  have hsource : slice m.memory.bytes m.index.toNat (m.index.toNat + (x + 1)) =
      some (m.pointed (x + 1)) := slice_memory hfit
  simp only [hsource, hcopy, Option.bind_some]
  rfl

/-- On the screen, no instruction of a word gives up. -/
theorem execute_eq_some {i : Instruction} (hc : m.frame.cols = 64) (hr : m.frame.rows = 32)
    (ht : ∀ target, i.target? = some target → target.toNat < 0x1000) :
    execute settings pad m i = some (i.execute settings pad m) := by
  cases i with
  | combine operator x y => simp [execute, Instruction.execute, apply_register]
  | jumpOffset base => simp [execute, Instruction.execute, jumpOffset_fits (ht base rfl)]
  | pointGlyph x => simp [execute, Instruction.execute, glyph_fits]
  | draw x y height => exact draw_eq_some hc hr x y height
  | storeDecimal x => exact storeDecimal_eq_some m x
  | storeRegisters x => exact storeRegisters_eq_some m x
  | loadRegisters x => exact loadRegisters_eq_some m x
  | skipEqual | skipUnequal | skipSame | skipDifferent | load | add | random | skipPressed
  | skipReleased | readDelay | setDelay | setSound | advance =>
    simp [execute, Instruction.execute, Machine.put]
  | _ => rfl

/-! ## Batches -/

theorem fetch_eq_some (m : Machine) : fetch m = some m.fetch := by
  rw [fetch, range_eq_some m.counter.toNat_lt (by decide)]
  by_cases h : m.counter.toNat + 2 ≤ memorySize
  · have hword : m.fetch = .ok (Word.join (m.memory.byteAt m.counter.toNat)
        (m.memory.byteAt (m.counter.toNat + 1))) := if_pos h
    rw [if_neg (Nat.not_lt.mpr h), hword]
    simp [slice_memory h, List.range_succ]
  · have hnone : m.fetch = .error (Memory.outside m.counter.toNat) := if_neg h
    rw [if_pos (Nat.lt_of_not_le h), hnone]
    rfl

theorem perform_eq_some (hb : m.Bounded settings) (w : UInt16) :
    perform settings pad m w = some (m.perform settings pad w) :=
  execute_eq_some hb.cols_eq hb.rows_eq fun _ => Instruction.target_lt

theorem step_eq_some (hb : m.Bounded settings) :
    step settings pad m = some (m.step settings pad) := by
  rw [step, fetch_eq_some]
  cases hf : m.fetch with
  | ok w => exact (perform_eq_some hb w).trans (congrArg some (Machine.step_of_fetch hf).symm)
  | error cause => exact congrArg some (Machine.step_of_fetch_error hf).symm

theorem batch_eq_some (n : Nat) (hb : m.Bounded settings) :
    batch settings pad n m = some (m.batch settings pad n) := by
  induction n generalizing m with
  | zero => rfl
  | succ n ih =>
    rw [batch, step_eq_some hb, Machine.batch]
    cases hs : m.step settings pad with
    | done next =>
      -- what was carried out keeps the bounds, so the rest of the batch does not give up either
      obtain ⟨w, hf, ho, rfl⟩ := Machine.step_eq_done_iff.mp hs
      exact ih (hb.after hf ho)
    | halted cause next => rfl

/-! ## Events -/

variable {c : Console}

theorem tick_eq_some (hb : c.machine.Bounded c.settings) : tick c = some c.tick := by
  unfold tick
  cases hf : c.fault with
  | some cause => simp [Console.report_of_fault hf, Console.tick_of_fault hf]
  | none =>
    cases hk : c.awaitsKey with
    | true => simp [Console.report_of_no_fault hf, Console.tick_of_awaitsKey hf hk]
    | false =>
      have hconsole : c.tick.console =
          c.finish (c.machine.batch c.settings c.pad c.settings.instructionsPerTick) :=
        Console.console_tick hf hk
      rw [c.tick_eq_report, hconsole, batch_eq_some _ hb]
      rfl

theorem load_eq_some (c : Console) (image : List UInt8) : load c image = some (c.load image) := by
  unfold load
  have hsize : UInt64.size = 0x10000000000000000 := rfl
  have hcapacity : programStart + programCapacity = memorySize := rfl
  have hmemory : memorySize = 0x1000 := rfl
  by_cases h : image.length ≤ programCapacity
  · have hfit : programStart + image.length ≤ memorySize := by omega
    rw [if_neg (Nat.not_lt.mpr h), Console.load_of_le h, fit64_eq_some (by omega)]
    simp [copy_memory c.machine.memory hfit]
  · rw [if_pos (Nat.lt_of_not_le h), Console.load_of_lt (Nat.lt_of_not_le h)]

theorem deliver_eq_some (c : Console) (ha : ∀ x, c.machine.awaiting = some x → x.toNat ≤ 0xF)
    (key : UInt8) : deliver c key = some (c.deliver key) := by
  unfold deliver Console.deliver
  cases hx : c.machine.awaiting with
  | none => rfl
  | some x =>
    dsimp only
    rw [set_numbered _ (ha x hx)]
    rfl

-- No event leads here: a key is awaited for a register that does not exist.
example : deliver { Console.ofProgram [] 1 with
    machine := { Machine.initial (.ofSeed 0) with awaiting := some 0x10 } } 0x7 = none := rfl

theorem handle_eq_some (hb : c.machine.Bounded c.settings) (event : Event) :
    handle c event = some (c.handle event) := by
  cases event with
  | tick => exact tick_eq_some hb
  | load image => exact load_eq_some c image
  | loadFrom source =>
    simp only [handle, Console.handle, Console.loadFrom]
    cases Image.ofReadings source with
    | ok image => exact load_eq_some c image
    | error cause => rfl
  | press key =>
    have hpressed : deliver { c with pad := c.pad.press key } key = some (c.press key) :=
      deliver_eq_some { c with pad := c.pad.press key } hb.awaiting_le key
    rw [handle, hpressed]
    rfl
  | deliver key =>
    rw [handle, deliver_eq_some c hb.awaiting_le]
    rfl
  | release | volume => rfl

/-! ## Runs -/

theorem bounded_of_moves {d : Console} {change : Change} (hb : c.machine.Bounded c.settings)
    (hm : c.Moves change d) : d.machine.Bounded d.settings := by
  rw [hm.settings_eq]
  exact hb.moves rfl hm

/-- An event keeps the bounds of a machine, whatever it leads through. -/
theorem bounded_handle (hb : c.machine.Bounded c.settings) (event : Event) :
    (c.handle event).console.machine.Bounded (c.handle event).console.settings :=
  ((Console.path_moments c event).invariant
    (P := fun d => d.machine.Bounded d.settings) hb bounded_of_moves).1

theorem bounded_of_mem_states {events : List Event} {random : Source}
    (hc : c ∈ (Console.start settings random).states events) :
    c.machine.Bounded c.settings :=
  Console.forall_states (P := fun d => d.machine.Bounded d.settings)
    (.initial settings random) bounded_of_moves events c hc

theorem run_eq_some (hb : c.machine.Bounded c.settings) (events : List Event) :
    run c events = some (c.run events) := by
  refine (foldlM_eq_some (P := fun d => d.machine.Bounded d.settings) hb ?_).1
  intro d event hd _
  exact ⟨congrArg (Option.map Reply.console) (handle_eq_some hd event), bounded_handle hd event⟩

theorem start_eq_some (settings : Settings) (random : Source) :
    start settings random = some (Console.start settings random) := by
  have hfont : 0 + Font.glyphs.length ≤ memorySize := by
    rw [Font.length_glyphs]
    decide
  have hcopy := copy_memory Memory.zero hfont
  rw [Nat.zero_add] at hcopy
  rw [start, hcopy]
  rfl

/-- The operands of a word as they are cut out of its sixteen bits. -/
theorem digits_eq (w : UInt16) :
    ((w >>> 8) &&& 0xF).toNat = Word.x w ∧ ((w >>> 4) &&& 0xF).toNat = Word.y w ∧
      (w &&& 0xF).toNat = Word.n w := by
  have hlow : ∀ k : Nat, k &&& 0xF = k % 0x10 := fun k => Nat.and_two_pow_sub_one_eq_mod k 4
  simp [Word.x, Word.y, Word.n, Word.digit, hlow, Nat.shiftRight_eq_div_pow]

/-- No run of events makes the checked machine give up, from its start on and whatever the settings,
the programs, the keys and the random bytes are: it goes where the unchecked machine goes.

At every moment of every run, within batches as well as between events:

* no event gives up
* no word gives up that might be fetched next
* no look at a cell of the frame gives up

The numbers that a word is cut into are digits, so those of registers are at most 15, and so is the
height of a sprite. -/
theorem checks_never_fail (settings : Settings) (random : Source) (events : List Event) :
    (do run (← start settings random) events) =
      some ((Console.start settings random).run events) ∧
    (∀ c ∈ (Console.start settings random).states events,
      (∀ event, handle c event = some (c.handle event)) ∧
      (∀ w, perform c.settings c.pad c.machine w =
        some (c.machine.perform c.settings c.pad w)) ∧
      ∀ x y, isSet c.machine.frame x y = some (c.machine.frame.isSet x y)) ∧
    ∀ w : UInt16, ((w >>> 8) &&& 0xF).toNat = Word.x w ∧ ((w >>> 4) &&& 0xF).toNat = Word.y w ∧
      (w &&& 0xF).toNat = Word.n w := by
  refine ⟨?_, ?_, digits_eq⟩
  · rw [start_eq_some]
    exact run_eq_some (.initial settings random) events
  · intro c hc
    have hb := bounded_of_mem_states hc
    refine ⟨handle_eq_some hb, perform_eq_some hb, isSet_eq_some ?_⟩
    rw [hb.cols_eq, hb.rows_eq]
    decide

/-- A program awaits a key for `V3`. Neither a key that no keypad has nor the farthest jump and the
tallest sprite make the checked machine give up. -/
theorem checks_never_fail_awaiting :
    let settings : Settings := { instructionsPerTick := 1 }
    let events : List Event := [.load [0xF3, 0x0A], .tick]
    let c := (Console.start settings (.ofSeed 0)).run events
    c.machine.awaiting = some 0x3 ∧
      c ∈ (Console.start settings (.ofSeed 0)).states events ∧
      (do run (← start settings (.ofSeed 0)) events) = some c ∧
      handle c (.press 0x10) = some (c.handle (.press 0x10)) ∧
      perform c.settings c.pad c.machine 0xBFFF =
        some (c.machine.perform c.settings c.pad 0xBFFF) ∧
      perform c.settings c.pad c.machine 0xDFFF =
        some (c.machine.perform c.settings c.pad 0xDFFF) := by
  intro settings events c
  let loaded := (Console.start settings (.ofSeed 0)).run [.load [0xF3, 0x0A]]
  have hm : loaded.machine.memory = Memory.initial.overwrite programStart [0xF3, 0x0A] :=
    Console.memory_load (by decide)
  have hf : loaded.machine.fetch = .ok 0xF30A :=
    Machine.fetch_of_image (k := 0) hm rfl (by decide) (by decide)
  have hawaiting : c.machine.awaiting = some 0x3 := by
    have hbatch : loaded.runBatch = .done _ := Machine.batch_of_fetch hf rfl
    show loaded.tick.console.machine.awaiting = _
    rw [Console.console_tick rfl rfl, hbatch]
    rfl
  have hmem := Console.run_mem_states (Console.start settings (.ofSeed 0)) events
  obtain ⟨hrun, hstates, -⟩ := checks_never_fail settings (.ofSeed 0) events
  obtain ⟨hhandle, hperform, -⟩ := hstates c hmem
  exact ⟨hawaiting, hmem, hrun, hhandle _, hperform _, hperform _⟩

end Checked

end ChipEight
