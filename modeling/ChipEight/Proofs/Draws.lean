import Mathlib.Data.Nat.Nth
import Mathlib.Data.Set.Card
import ChipEight.Proofs.Footprint

/-!
# Random draws

The words `Cxkk` are the only ones that draw random bytes, and each of them draws one byte. So a
source of random bytes tells how many of them were carried out, and the number of them before it
tells which byte a `Cxkk` gets.

* `usable_iff`: one word of the 2³² is discarded for bytes of the limited range
* `ncard_standsFor`: each byte of that range stands for as many words as any other
* `Source.fst_byte_skip_full`, `Source.fst_byte_skip_limited`: the byte that is drawn after others
* `Moves.random_eq`, `Path.random_eq`: what a change draws, and what changes draw that follow one
  another
* `draws_are_fair`: all of it over runs
-/

namespace ChipEight

/-! ## Words of the limited range -/

/-- A word is discarded if it is the largest that would be scaled to 0. -/
theorem usable_iff (w : UInt32) : usable w = true ↔ w ≠ 0x01010101 := by
  have hw : w.toNat < 0x100000000 := w.toNat_lt
  have heq : w = 0x01010101 ↔ w.toNat = 0x01010101 := UInt32.toNat_inj.symm
  rw [usable, decide_eq_true_iff, scaled, wordCount, ne_eq, heq]
  omega

/-- A word is not scaled beyond the limited range. -/
theorem scaled_div_lt (w : UInt32) : scaled w / wordCount < 0xFF := by
  have hw : w.toNat < 0x100000000 := w.toNat_lt
  rw [scaled, wordCount]
  omega

/-- A byte of the limited range is never 255, and neither is what a mask leaves of it. -/
theorem and_ne_of_lt {byte : Nat} (h : byte < 0xFF) (mask : UInt8) :
    UInt8.ofNat byte &&& mask ≠ 0xFF := by
  intro heq
  have hle : (UInt8.ofNat byte &&& mask).toNat ≤ (UInt8.ofNat byte).toNat := by
    rw [UInt8.toNat_and]
    exact Nat.and_le_left
  rw [heq, UInt8.toNat_ofNat_of_lt' (Nat.lt_succ_of_lt h)] at hle
  exact absurd hle (Nat.not_le_of_lt h)

/-- The words that stand for a byte of the limited range. -/
def standsFor (byte : Nat) : Set UInt32 := {w | usable w = true ∧ scaled w / wordCount = byte}

theorem mem_image_standsFor {byte n : Nat} :
    n ∈ UInt32.toNat '' standsFor byte ↔
      n < wordCount ∧ n ≠ 0x01010101 ∧ n * 255 / wordCount = byte := by
  constructor
  · rintro ⟨w, ⟨hu, hs⟩, rfl⟩
    rw [usable_iff, ne_eq, ← UInt32.toNat_inj] at hu
    exact ⟨w.toNat_lt, hu, hs⟩
  · rintro ⟨hn, hne, hs⟩
    have hw : (UInt32.ofNat n).toNat = n := UInt32.toNat_ofNat_of_lt' hn
    refine ⟨UInt32.ofNat n, ⟨?_, ?_⟩, hw⟩
    · rw [usable_iff, ne_eq, ← UInt32.toNat_inj, hw]
      exact hne
    · rw [scaled, hw, hs]

/-- The words that stand for 0 are the first ones, up to the one that is discarded. -/
theorem image_standsFor_zero :
    UInt32.toNat '' standsFor 0 = (Finset.range 0x01010101 : Set Nat) := by
  ext n
  rw [mem_image_standsFor, wordCount, Finset.coe_range, Set.mem_Iio]
  omega

/-- The words that stand for another byte follow those that stand for the byte before it, and the
one that is discarded. -/
theorem image_standsFor {byte : Nat} (hpos : 0 < byte) (h : byte < 0xFF) :
    UInt32.toNat '' standsFor byte =
      (Finset.Ioc (byte * 0x01010101) ((byte + 1) * 0x01010101) : Set Nat) := by
  ext n
  rw [mem_image_standsFor, wordCount, Finset.coe_Ioc, Set.mem_Ioc]
  omega

/-- Each byte of the limited range has its 255th part of the words that are not discarded. -/
theorem ncard_standsFor {byte : Nat} (h : byte < 0xFF) : (standsFor byte).ncard = 0x01010101 := by
  have hinj : Function.Injective UInt32.toNat := fun v w => UInt32.toNat_inj.mp
  rw [← Set.ncard_image_of_injective _ hinj]
  rcases Nat.eq_zero_or_pos byte with rfl | hpos
  · rw [image_standsFor_zero, Set.ncard_coe_finset, Finset.card_range]
  · rw [image_standsFor hpos h, Set.ncard_coe_finset, Nat.card_Ioc]
    omega

/-! ## Bytes of a source -/

namespace Source

/-- The words of a source that are still to come. -/
def upcoming (source : Source) (i : Nat) : UInt32 := source.stream.word (source.place + i)

/-- Whether a word that is still to come is not discarded. -/
def keeps (source : Source) (i : Nat) : Prop := source.upcoming i ≠ 0x01010101

instance (source : Source) : DecidablePred source.keeps :=
  fun i => inferInstanceAs (Decidable (source.upcoming i ≠ 0x01010101))

/-- The source after `n` bytes were drawn from it. -/
def skip (source : Source) (full : Bool) (n : Nat) : Source :=
  (fun source => (source.byte full).2)^[n] source

/-- How many words `n` bytes of the limited range use up, the discarded ones among them. -/
noncomputable def cost (source : Source) : Nat → Nat
  | 0 => 0
  | n + 1 => Nat.nth source.keeps n + 1

variable (source : Source)

theorem skip_succ (full : Bool) (n : Nat) :
    source.skip full (n + 1) = ((source.byte full).2).skip full n :=
  Function.iterate_succ_apply _ n source

theorem skip_succ' (full : Bool) (n : Nat) :
    source.skip full (n + 1) = ((source.skip full n).byte full).2 :=
  Function.iterate_succ_apply' _ n source

theorem usable_upcoming (i : Nat) : usable (source.upcoming i) = true ↔ source.keeps i :=
  usable_iff _

theorem infinite_keeps : (Set.ofPred source.keeps).Infinite := by
  refine Set.infinite_of_forall_exists_gt fun n => ?_
  obtain ⟨k, hk, hu⟩ := source.stream.recurs (source.place + n + 1)
  obtain ⟨i, rfl⟩ := Nat.exists_eq_add_of_le hk
  refine ⟨n + 1 + i, ?_, by omega⟩
  rw [Nat.add_assoc, Nat.add_assoc, ← Nat.add_assoc n] at hu
  exact (source.usable_upcoming _).mp hu

/-- Looking for a usable word ends at the first one that is kept. -/
theorem seek_eq (n : Nat) :
    source.stream.seek (source.place + n) =
      source.place + Nat.nth source.keeps (Nat.count source.keeps n) := by
  generalize hm : source.place + n = m
  -- the search looks at the places one by one, and a place that it passes over is not counted
  induction m using WordStream.seek.induct source.stream generalizing n with
  | case1 m h =>
    subst hm
    rw [WordStream.seek_of_usable h, Nat.nth_count ((source.usable_upcoming n).mp h)]
  | case2 m h ih =>
    subst hm
    have hn : ¬ source.keeps n := fun hk => h ((source.usable_upcoming n).mpr hk)
    rw [WordStream.seek_of_not_usable (Bool.eq_false_iff.mpr h), ih (n + 1) rfl, Nat.count_succ,
      if_neg hn, Nat.add_zero]

theorem count_cost (n : Nat) : Nat.count source.keeps (source.cost n) = n := by
  cases n with
  | zero => rfl
  | succ n => exact Nat.count_nth_succ_of_infinite source.infinite_keeps n

/-- Bytes of the full range use up one word each. -/
theorem skip_full (n : Nat) : source.skip true n = { source with place := source.place + n } := by
  induction n with
  | zero => rfl
  | succ n ih =>
    rw [skip_succ', ih]
    rfl

/-- Bytes of the limited range use up the words that are kept, and those that are discarded before
them. -/
theorem skip_limited (n : Nat) :
    source.skip false n = { source with place := source.place + source.cost n } := by
  induction n with
  | zero => rfl
  | succ n ih =>
    rw [skip_succ', ih, byte, if_neg Bool.false_ne_true, limitedByte]
    dsimp only
    rw [seek_eq, count_cost]
    rfl

theorem fst_byte_skip_full (k : Nat) :
    ((source.skip true k).byte true).1 = UInt8.ofNat ((source.upcoming k).toNat % 0x100) := by
  rw [skip_full]
  refine UInt8.toNat_inj.mp ?_
  show (source.upcoming k).toUInt8.toNat = _
  rw [UInt32.toNat_toUInt8, UInt8.toNat_ofNat', Nat.mod_mod]

theorem fst_byte_skip_limited (k : Nat) :
    ((source.skip false k).byte false).1 =
      UInt8.ofNat (scaled (source.upcoming (Nat.nth source.keeps k)) / wordCount) := by
  rw [skip_limited, byte, if_neg Bool.false_ne_true, limitedByte]
  dsimp only
  rw [seek_eq, count_cost]
  rfl

end Source

/-! ## Words that draw -/

/-- Whether a change draws a random byte: a word `Cxkk` was carried out. -/
def Change.draws : Change → Bool
  | .word w => Word.family w = 0xC
  | _ => false

theorem Change.draws_word_iff {w : UInt16} :
    (Change.word w).draws = true ↔ Word.family w = 0xC :=
  decide_eq_true_iff

/-- Whether a random byte was drawn at this moment. -/
def Moment.draws (x : Moment) : Bool := x.change.draws

namespace Machine

variable {settings : Settings} {pad : HexPad} {m : Machine} {w : UInt16}

theorem random_after (h : Word.family w = 0xC) :
    (m.after settings pad w).random = (m.random.byte settings.fullRandomRange).2 := by
  rw [after, Instruction.ofWord_eq_of_spells (.random h)]
  rfl

theorem random_after_of_ne (h : Word.family w ≠ 0xC) :
    (m.after settings pad w).random = m.random := by
  have hsame : Part.random.Same m (m.after settings pad w) := by
    refine same_of_not_reaches fun hr => ?_
    cases hr with
    | source hc => exact h hc
  exact hsame

/-- A word `Cxkk` stores the byte that it draws, under the mask `kk`. -/
theorem get_after_of_draws (h : Word.family w = 0xC) :
    (m.after settings pad w).registers.get (Word.x w) =
      (m.random.byte settings.fullRandomRange).1 &&& Word.kk w := by
  rw [after, Instruction.ofWord_eq_of_spells (.random h)]
  exact (Registers.get_set _ _ _ _).trans (if_pos rfl)

end Machine

namespace Console

variable {c d : Console} {events : List Event} {xs ys : List Moment} {x : Moment}

theorem random_touched {m m' : Machine} (h : Touched m m') : m'.random = m.random := by
  cases h <;> rfl

/-- A change draws one byte or leaves the source as it is. -/
theorem Moves.random_eq {change : Change} (hm : c.Moves change d) :
    d.machine.random =
      if change.draws then (c.machine.random.byte c.settings.fullRandomRange).2
      else c.machine.random := by
  cases hm with
  | @word w m hf hp =>
    obtain ⟨-, rfl⟩ := Machine.perform_eq_done_iff.mp hp
    by_cases h : Word.family w = 0xC
    · rw [if_pos (Change.draws_word_iff.mpr h)]
      exact Machine.random_after h
    · rw [if_neg fun hd => h (Change.draws_word_iff.mp hd)]
      exact Machine.random_after_of_ne h
  | @halt cause m hs =>
    rw [Machine.eq_of_step_halted hs]
    rfl
  | timers => rfl
  | host he => exact random_touched (touched_handle he)

/-- Changes that follow one another draw one byte for each of them that draws. -/
theorem Path.random_eq (hp : Path c xs d) :
    d.machine.random =
      c.machine.random.skip c.settings.fullRandomRange (xs.countP Moment.draws) := by
  induction hp with
  | nil => rfl
  | @cons c next d change rest hm _ ih =>
    rw [ih, hm.settings_eq, hm.random_eq, List.countP_cons]
    show _ = c.machine.random.skip _ (_ + if change.draws then 1 else 0)
    cases change.draws with
    | true => exact (Source.skip_succ _ _ _).symm
    | false => rfl

theorem Moves.get_of_draws {w : UInt16} (hm : c.Moves (.word w) d) (hw : Word.family w = 0xC) :
    d.machine.registers.get (Word.x w) =
      (c.machine.random.byte c.settings.fullRandomRange).1 &&& Word.kk w := by
  obtain ⟨-, -, rfl⟩ := hm.of_word
  exact Machine.get_after_of_draws hw

/-- A word `Cxkk` gets the byte that comes after those that were drawn before it. -/
theorem get_of_draws (h : c.history events = xs ++ x :: ys) {w : UInt16} (hx : x.change = .word w)
    (hw : Word.family w = 0xC) :
    x.after.machine.registers.get (Word.x w) =
      ((c.machine.random.skip c.settings.fullRandomRange (xs.countP Moment.draws)).byte
        c.settings.fullRandomRange).1 &&& Word.kk w := by
  obtain ⟨hxs, hm, -⟩ := (h ▸ path_history c events).split
  rw [hx] at hm
  rw [← hxs.random_eq, ← hxs.settings_eq]
  exact hm.get_of_draws hw

/-- Random bytes are drawn by the words `Cxkk` and by nothing else, one for each of them, and each
byte of the limited range is as likely as any other.

* A change that is not the carrying out of a word `Cxkk` leaves the source as it is.
* In the full range the k-th word `Cxkk` stores the low byte of the k-th random word, under its
  mask.
* In the limited range the random words `01010101` are discarded, and no others. The k-th word
  `Cxkk` scales the k-th of those that are left to a byte from 0 to 254 and stores it under its
  mask, so it never stores 255.
* Each of these 255 bytes is made from as many random words: 16843009 of the 2³². -/
theorem draws_are_fair (c : Console) (events : List Event) :
    let random := c.machine.random
    let left := (c.run events).machine.random
    let draws := (c.history events).countP Moment.draws
    (left.stream = random.stream ∧
      ∀ x ∈ c.history events, (∀ w, x.change = .word w → Word.family w ≠ 0xC) →
        x.after.machine.random = x.before.machine.random) ∧
    (c.settings.fullRandomRange = true →
      left.place = random.place + draws ∧
      ∀ xs x ys w, c.history events = xs ++ x :: ys → x.change = .word w → Word.family w = 0xC →
        x.after.machine.registers.get (Word.x w) =
          UInt8.ofNat ((random.upcoming (xs.countP Moment.draws)).toNat % 0x100) &&& Word.kk w) ∧
    (c.settings.fullRandomRange = false →
      left.place = random.place + random.cost draws ∧
      ∀ xs x ys w, c.history events = xs ++ x :: ys → x.change = .word w → Word.family w = 0xC →
        let kept := random.upcoming (Nat.nth random.keeps (xs.countP Moment.draws))
        let byte := 0xFF * kept.toNat / 0x100000000
        kept ≠ 0x01010101 ∧ byte ≤ 0xFE ∧
          x.after.machine.registers.get (Word.x w) = UInt8.ofNat byte &&& Word.kk w ∧
          x.after.machine.registers.get (Word.x w) ≠ 0xFF) ∧
    (∀ word, usable word = false ↔ word = 0x01010101) ∧
    ∀ byte ≤ 0xFE, (standsFor byte).ncard = 16843009 := by
  intro random left draws
  have hleft : left = random.skip c.settings.fullRandomRange draws :=
    (path_history c events).random_eq
  refine ⟨⟨?_, ?_⟩, ?_, ?_, ?_, ?_⟩
  · rw [hleft]
    cases c.settings.fullRandomRange with
    | true => rw [Source.skip_full]
    | false => rw [Source.skip_limited]
  · intro x hx hw
    obtain ⟨hm, -⟩ := (path_history c events).moves_of_mem hx
    rw [hm.random_eq, if_neg]
    cases hc : x.change with
    | word w => exact fun hd => hw w hc (Change.draws_word_iff.mp hd)
    | halt | timers | host => exact Bool.false_ne_true
  · intro hfull
    rw [hfull, Source.skip_full] at hleft
    refine ⟨congrArg Source.place hleft, fun xs x ys w h hx hw => ?_⟩
    rw [get_of_draws h hx hw, hfull, Source.fst_byte_skip_full]
  · intro hlimited
    rw [hlimited, Source.skip_limited] at hleft
    refine ⟨congrArg Source.place hleft, fun xs x ys w h hx hw => ?_⟩
    intro kept byte
    have hbyte : byte = scaled kept / wordCount :=
      congrArg (· / wordCount) (Nat.mul_comm _ _)
    have hlt : byte < 0xFF := hbyte ▸ scaled_div_lt kept
    have hget : x.after.machine.registers.get (Word.x w) = UInt8.ofNat byte &&& Word.kk w := by
      rw [get_of_draws h hx hw, hlimited, Source.fst_byte_skip_limited, hbyte]
    refine ⟨Nat.nth_mem_of_infinite random.infinite_keeps _, Nat.le_of_lt_succ hlt, hget, ?_⟩
    rw [hget]
    exact and_ne_of_lt hlt _
  · intro word
    rw [← Bool.not_eq_true, usable_iff, not_not]
  · intro byte h
    exact ncard_standsFor (Nat.lt_succ_of_le h)

/-- The first random word is discarded. The second one stands for 254, and `C37F` stores what its
mask leaves of that. -/
theorem draws_are_fair_discarded :
    let stream : WordStream := ⟨fun | 0 => 0x01010101 | _ + 1 => 0xFFFFFFFF,
      fun n => ⟨n + 1, Nat.le_succ n, show usable 0xFFFFFFFF = true by decide⟩⟩
    let p := ofProgram [0xC3, 0x7F] 1
    let c := p.withMachine { p.machine with random := ⟨stream, 0⟩ }
    ∃ x y, c.history [.tick] = [x, y] ∧ x.change = .word 0xC37F ∧
      x.after.machine.registers.get 0x3 = 0x7E ∧ (c.run [.tick]).machine.random.place = 2 := by
  intro stream p c
  have hm : c.machine.memory = Memory.zero.overwrite programStart [0xC3, 0x7F] := rfl
  have hf : c.machine.fetch = .ok 0xC37F :=
    Machine.fetch_of_image (k := 0) hm rfl (by decide) (by decide)
  let d := c.withMachine (c.machine.after c.settings c.pad 0xC37F)
  let x : Moment := ⟨.word 0xC37F, c, d⟩
  let y : Moment := ⟨.timers, d, d.finish (.done d.machine)⟩
  have hhistory : c.history [.tick] = [] ++ x :: [y] := by
    show batchMoments (0 + 1) c ++ [] = _
    rw [batchMoments_succ _ hf rfl]
    rfl
  have hdiscarded : ¬ c.machine.random.keeps 0 := fun h => h rfl
  have hkept : c.machine.random.keeps 1 := by
    show (0xFFFFFFFF : UInt32) ≠ 0x01010101
    decide
  have hnth : Nat.nth c.machine.random.keeps 0 = 1 := by
    have h : Nat.nth c.machine.random.keeps (Nat.count c.machine.random.keeps 1) = 1 :=
      Nat.nth_count hkept
    rwa [Nat.count_succ, if_neg hdiscarded] at h
  obtain ⟨-, -, hlimited, -⟩ := draws_are_fair c [.tick]
  obtain ⟨hplace, hdraws⟩ := hlimited rfl
  obtain ⟨-, -, hget, -⟩ := hdraws [] x [y] 0xC37F hhistory rfl rfl
  refine ⟨x, y, hhistory, rfl, ?_, ?_⟩
  · have hword : c.machine.random.upcoming 1 = 0xFFFFFFFF := rfl
    rw [List.countP_nil, hnth, hword] at hget
    exact hget.trans (by decide)
  · rw [hplace, hhistory]
    show 0 + (Nat.nth c.machine.random.keeps 0 + 1) = 2
    rw [hnth]

end Console

end ChipEight
