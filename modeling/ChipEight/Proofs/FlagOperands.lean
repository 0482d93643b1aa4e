import Mathlib.Data.Nat.Bitwise
import ChipEight.Proofs.Decoding
import ChipEight.Proofs.Step

/-!
# Arithmetic with the flag as an operand

The operators of family `8` that report something write `Vx` and the flag, and either operand may
be the flag itself. A sum writes `Vx` first, so its report is what stays. The others report first
and then read their operands again: an operand that is the flag reads as what was reported, and a
`Vx` that is the flag loses the report.

* `apply_subtract`, `apply_subtractFrom`, `apply_halve`, `apply_double`: the operators that report
  first
* `reportFirst_cases`: what such an operator leaves, by where the flag occurs
* `arithmetic_on_flag`: sums, differences and shifts as numbers, wherever the flag occurs
-/

namespace ChipEight

namespace Operator

variable {carries : Bool} {r : Registers} {x y : Register} {reported : UInt8}
  {compute : UInt8 → UInt8 → UInt8}

/-! ## Bytes as numbers -/

theorem toNat_sum (a b : UInt8) : ((a + b).toNat : Int) = (a.toNat + b.toNat) % 256 := by
  rw [UInt8.toNat_add]
  omega

theorem toNat_difference (a b : UInt8) : ((a - b).toNat : Int) = (a.toNat - b.toNat) % 256 := by
  have ha := a.toNat_lt
  have hb := b.toNat_lt
  rw [UInt8.toNat_sub]
  omega

theorem toNat_low (a : UInt8) : ((a &&& 1).toNat : Int) = a.toNat % 2 := by
  rw [UInt8.toNat_and]
  exact congrArg Int.ofNat (Nat.and_one_is_mod _)

theorem toNat_high (a : UInt8) :
    ((a &&& 0x80).toNat : Int) = if 128 ≤ (a.toNat : Int) then 128 else 0 := by
  have ha := a.toNat_lt
  have hand : (a &&& 0x80).toNat = (a.toNat.testBit 7).toNat * 2 ^ 7 := by
    rw [UInt8.toNat_and]
    exact Nat.and_two_pow a.toNat 7
  rw [hand, Nat.testBit_eq_decide_div_mod_eq]
  by_cases h : a.toNat / 2 ^ 7 % 2 = 1
  · rw [decide_eq_true h, if_pos (by omega)]
    rfl
  · rw [decide_eq_false h, if_neg (by omega)]
    rfl

theorem toNat_half (a : UInt8) : ((a >>> 1).toNat : Int) = a.toNat / 2 := by
  rw [UInt8.toNat_shiftRight]
  rfl

theorem toNat_twice (a : UInt8) : ((a <<< 1).toNat : Int) = 2 * a.toNat % 256 := by
  have htwice : a.toNat <<< 1 = 2 * a.toNat := by rw [Nat.shiftLeft_eq, Nat.mul_comm]
  rw [UInt8.toNat_shiftLeft]
  exact congrArg (fun k : Nat => ((k % 256 : Nat) : Int)) htwice

theorem toNat_bit_lt (a b : UInt8) :
    ((bit (a < b)).toNat : Int) = if (a.toNat : Int) < b.toNat then 1 else 0 := by
  by_cases h : a.toNat < b.toNat <;> simp [bit, UInt8.lt_iff_toNat_lt, h]

theorem toNat_bit_carry (carries : Bool) (a b : UInt8) :
    ((bit (carries && 0x100 ≤ a.toNat + b.toNat)).toNat : Int) =
      if carries = true ∧ 256 ≤ (a.toNat + b.toNat : Int) then 1 else 0 := by
  have hle : 256 ≤ (a.toNat + b.toNat : Int) ↔ 0x100 ≤ a.toNat + b.toNat := by omega
  by_cases h : 0x100 ≤ a.toNat + b.toNat <;> cases carries <;> simp [bit, hle, h]

/-! ## Reporting first -/

/-- The registers after an operator that reports and then computes `Vx` from the operands as they
stand. -/
def reportFirst (r : Registers) (x y : Register) (reported : UInt8)
    (compute : UInt8 → UInt8 → UInt8) : Registers :=
  let r := report r reported
  r.set x (compute (r.get x) (r.get y))

theorem apply_subtract (carries : Bool) (r : Registers) (x y : Register) :
    apply carries r x y .subtract =
      reportFirst r x y (bit (r.get y < r.get x)) fun a b => a - b :=
  rfl

theorem apply_subtractFrom (carries : Bool) (r : Registers) (x y : Register) :
    apply carries r x y .subtractFrom =
      reportFirst r x y (bit (r.get x < r.get y)) fun a b => b - a :=
  rfl

theorem apply_halve (carries : Bool) (r : Registers) (x y : Register) :
    apply carries r x y .halve = reportFirst r x y (r.get x &&& 1) fun a _ => a >>> 1 :=
  rfl

theorem apply_double (carries : Bool) (r : Registers) (x y : Register) :
    apply carries r x y .double = reportFirst r x y (r.get x &&& 0x80) fun a _ => a <<< 1 :=
  rfl

/-- What an operand reads as after a report. -/
def reread (r : Registers) (reported : UInt8) (z : Register) : UInt8 :=
  if z = flag then reported else r.get z

theorem reread_flag {z : Register} (h : z = flag) : reread r reported z = reported := if_pos h

theorem reread_of_ne {z : Register} (h : z ≠ flag) : reread r reported z = r.get z := if_neg h

theorem get_report (r : Registers) (reported : UInt8) (z : Register) :
    (report r reported).get z = reread r reported z := by
  rw [report, Registers.get_set, reread]
  simp only [eq_comm]

/-- `Vx` is computed from what the operands read as after the report. -/
theorem get_reportFirst_self : (reportFirst r x y reported compute).get x =
    compute (reread r reported x) (reread r reported y) := by
  rw [reportFirst, Registers.get_set, if_pos rfl, get_report, get_report]

/-- The report stays in the flag, unless `Vx` is the flag. -/
theorem get_reportFirst_flag (h : x ≠ flag) :
    (reportFirst r x y reported compute).get flag = reported := by
  rw [reportFirst, Registers.get_set, if_neg h, get_report]
  exact if_pos rfl

/-- The four ways in which the flag may be among the operands, in numbers: `f` is what is reported
and `g` what is computed. -/
theorem reportFirst_cases (r : Registers) (x y : Register) {f : Int} {g : Int → Int → Int}
    (hf : (reported.toNat : Int) = f)
    (hg : ∀ a b : UInt8, ((compute a b).toNat : Int) = g a.toNat b.toNat) :
    let vx : Int := (r.get x).toNat
    let vy : Int := (r.get y).toNat
    let r' := reportFirst r x y reported compute
    let vx' : Int := (r'.get x).toNat
    let vf' : Int := (r'.get flag).toNat
    (x ≠ flag → y ≠ flag → vx' = g vx vy ∧ vf' = f) ∧
    (x ≠ flag → y = flag → vx' = g vx f ∧ vf' = f) ∧
    (x = flag → y ≠ flag → vf' = g f vy) ∧
    (x = flag → y = flag → vf' = g f f) := by
  intro vx vy r' vx' vf'
  have hself : vx' = g (reread r reported x).toNat (reread r reported y).toNat := by
    unfold vx' r'
    rw [get_reportFirst_self, hg]
  have hflag : x ≠ flag → vf' = f := by
    intro hx
    unfold vf' r'
    rw [get_reportFirst_flag hx, hf]
  subst hf
  refine ⟨?_, ?_, ?_, ?_⟩
  · intro hx hy
    rw [reread_of_ne hx, reread_of_ne hy] at hself
    exact ⟨hself, hflag hx⟩
  · intro hx hy
    rw [reread_of_ne hx, reread_flag hy] at hself
    exact ⟨hself, hflag hx⟩
  · rintro rfl hy
    rw [reread_flag rfl, reread_of_ne hy] at hself
    exact hself
  · rintro rfl rfl
    rw [reread_flag rfl] at hself
    exact hself

/-- A shift looks at `Vx` alone. -/
theorem reportFirst_shift (r : Registers) (x y : Register) {shift : UInt8 → UInt8} {f : Int}
    {g : Int → Int} (hf : (reported.toNat : Int) = f)
    (hg : ∀ a : UInt8, ((shift a).toNat : Int) = g a.toNat) :
    let vx : Int := (r.get x).toNat
    let r' := reportFirst r x y reported fun a _ => shift a
    let vx' : Int := (r'.get x).toNat
    let vf' : Int := (r'.get flag).toNat
    (x ≠ flag → vx' = g vx ∧ vf' = f) ∧ (x = flag → vf' = g f) := by
  intro vx r' vx' vf'
  obtain ⟨hneither, hsecond, hfirst, hboth⟩ :=
    reportFirst_cases r x y (g := fun a _ => g a) hf fun a _ => hg a
  by_cases hy : y = flag
  · exact ⟨fun hx => hsecond hx hy, fun hx => hboth hx hy⟩
  · exact ⟨fun hx => hneither hx hy, fun hx => hfirst hx hy⟩

/-! ## Sums -/

/-- A sum reports last, so its report stays in the flag. -/
theorem get_flag_add (carries : Bool) (r : Registers) (x y : Register) :
    (apply carries r x y .add).get flag =
      bit (carries && 0x100 ≤ (r.get x).toNat + (r.get y).toNat) :=
  (Registers.get_set _ _ _ _).trans (if_pos rfl)

theorem get_add (hx : x ≠ flag) :
    (apply carries r x y .add).get x = r.get x + r.get y := by
  refine (Registers.get_set _ _ _ _).trans ((if_neg hx.symm).trans ?_)
  rw [Registers.get_set, if_pos rfl]

end Operator

namespace Machine

open Word Instruction

variable {settings : Settings} {pad : HexPad} {m : Machine} {w : UInt16}

/-! ## Words of family 8 -/

theorem ofWord_arithmetic (hw : family w = 0x8) : ofWord w = ofArithmetic w := by
  simp [ofWord, hw]

/-- Nothing keeps a word of family `8` from being carried out. -/
theorem perform_arithmetic (hw : family w = 0x8) :
    m.perform settings pad w = .done (m.after settings pad w) := by
  refine perform_eq_done_iff.mpr ⟨?_, rfl⟩
  rw [obstacle?, ofWord_arithmetic hw, ofArithmetic]
  cases operator? (n w) <;> rfl

theorem registers_after_arithmetic (hw : family w = 0x8) :
    (m.after settings pad w).registers =
      match operator? (n w) with
      | some o => o.apply settings.addSetsCarry m.registers (x w) (y w)
      | none => m.registers := by
  rw [after, ofWord_arithmetic hw, ofArithmetic]
  cases operator? (n w) <;> rfl

theorem registers_after_operator {o : Operator} (hw : family w = 0x8)
    (ho : operator? (n w) = some o) :
    (m.after settings pad w).registers =
      o.apply settings.addSetsCarry m.registers (x w) (y w) := by
  rw [registers_after_arithmetic hw, ho]

theorem get_after_arithmetic_of_ne {z : Register} (hw : family w = 0x8) (hx : z ≠ x w)
    (hf : z ≠ flag) : (m.after settings pad w).registers.get z = m.registers.get z := by
  rw [registers_after_arithmetic hw]
  cases operator? (n w) with
  | none => rfl
  | some o => exact Operator.get_apply_of_ne o hx.symm hf.symm

/-- A word of family `8` is carried out and changes no register but `Vx` and the flag. Whether or
not one of the operands is the flag, what a sum, a difference or a shift leaves in `Vx` and in the
flag is this. -/
theorem arithmetic_on_flag (settings : Settings) (pad : HexPad) (m : Machine) (w : UInt16)
    (hw : family w = 0x8) :
    let x := Word.x w
    let y := Word.y w
    let vx : Int := (m.registers.get x).toNat
    let vy : Int := (m.registers.get y).toNat
    ∃ m', m.perform settings pad w = .done m' ∧
      let vx' : Int := (m'.registers.get x).toNat
      let vf' : Int := (m'.registers.get flag).toNat
      (∀ z, z ≠ x → z ≠ flag → m'.registers.get z = m.registers.get z) ∧
      (n w = 0x4 →
        vf' = (if settings.addSetsCarry = true ∧ 256 ≤ vx + vy then 1 else 0) ∧
        (x ≠ flag → vx' = (vx + vy) % 256)) ∧
      (n w = 0x5 →
        let f : Int := if vy < vx then 1 else 0
        (x ≠ flag → y ≠ flag → vx' = (vx - vy) % 256 ∧ vf' = f) ∧
        (x ≠ flag → y = flag → vx' = (vx - f) % 256 ∧ vf' = f) ∧
        (x = flag → y ≠ flag → vf' = (f - vy) % 256) ∧
        (x = flag → y = flag → vf' = 0)) ∧
      (n w = 0x7 →
        let f : Int := if vx < vy then 1 else 0
        (x ≠ flag → y ≠ flag → vx' = (vy - vx) % 256 ∧ vf' = f) ∧
        (x ≠ flag → y = flag → vx' = (f - vx) % 256 ∧ vf' = f) ∧
        (x = flag → y ≠ flag → vf' = (vy - f) % 256) ∧
        (x = flag → y = flag → vf' = 0)) ∧
      (n w = 0x6 →
        (x ≠ flag → vx' = vx / 2 ∧ vf' = vx % 2) ∧ (x = flag → vf' = 0)) ∧
      (n w = 0xE →
        (x ≠ flag → vx' = 2 * vx % 256 ∧ vf' = if 128 ≤ vx then 128 else 0) ∧
        (x = flag → vf' = 0)) := by
  intro x y vx vy
  let r := m.registers
  have hregisters : ∀ o, operator? (n w) = some o →
      (m.after settings pad w).registers = o.apply settings.addSetsCarry r x y :=
    fun o => registers_after_operator hw
  refine ⟨_, perform_arithmetic hw, fun z hx hf => get_after_arithmetic_of_ne hw hx hf, ?_⟩
  refine ⟨?_, ?_, ?_, ?_, ?_⟩
  · intro hn
    rw [hregisters .add (by rw [hn]; rfl)]
    refine ⟨?_, ?_⟩
    · rw [Operator.get_flag_add, Operator.toNat_bit_carry]
    · intro hx
      rw [Operator.get_add hx, Operator.toNat_sum]
  · intro hn f
    rw [hregisters .subtract (by rw [hn]; rfl), Operator.apply_subtract]
    have hf : ((Operator.bit (r.get y < r.get x)).toNat : Int) = f := Operator.toNat_bit_lt _ _
    obtain ⟨hneither, hsecond, hfirst, hboth⟩ := Operator.reportFirst_cases r x y
      (g := fun a b => (a - b) % 256) hf Operator.toNat_difference
    refine ⟨hneither, hsecond, hfirst, fun hx hy => (hboth hx hy).trans ?_⟩
    rw [Int.sub_self, Int.zero_emod]
  · intro hn f
    rw [hregisters .subtractFrom (by rw [hn]; rfl), Operator.apply_subtractFrom]
    have hf : ((Operator.bit (r.get x < r.get y)).toNat : Int) = f := Operator.toNat_bit_lt _ _
    obtain ⟨hneither, hsecond, hfirst, hboth⟩ := Operator.reportFirst_cases r x y
      (g := fun a b => (b - a) % 256) hf fun a b => Operator.toNat_difference b a
    refine ⟨hneither, hsecond, hfirst, fun hx hy => (hboth hx hy).trans ?_⟩
    rw [Int.sub_self, Int.zero_emod]
  · intro hn
    rw [hregisters .halve (by rw [hn]; rfl), Operator.apply_halve]
    obtain ⟨hother, hflag⟩ := Operator.reportFirst_shift r x y
      (g := fun a => a / 2) (Operator.toNat_low _) Operator.toNat_half
    -- the bit that was reported is shifted out
    exact ⟨hother, fun hx => (hflag hx).trans (by omega)⟩
  · intro hn
    rw [hregisters .double (by rw [hn]; rfl), Operator.apply_double]
    obtain ⟨hother, hflag⟩ := Operator.reportFirst_shift r x y
      (g := fun a => 2 * a % 256) (Operator.toNat_high _) Operator.toNat_twice
    exact ⟨hother, fun hx => (hflag hx).trans (by split <;> rfl)⟩

/-- A difference with the flag as the second operand. `V0` is 5 and the flag is 3, but what is taken
from `V0` is the 1 that was reported. -/
theorem arithmetic_on_flag_reported :
    let m := ((Machine.initial (.ofSeed 0)).put v0 5).put flag 3
    family 0x80F5 = 0x8 ∧ ∃ m', m.perform {} .released 0x80F5 = .done m' ∧
      ((m'.registers.get v0).toNat : Int) = 4 ∧ ((m'.registers.get flag).toNat : Int) = 1 := by
  intro m
  obtain ⟨m', hm', -, -, hsubtract, -⟩ := arithmetic_on_flag {} .released m 0x80F5 (by decide)
  obtain ⟨-, hflag, -⟩ := hsubtract (by decide)
  obtain ⟨hself, hreport⟩ := hflag (by decide) (by decide)
  exact ⟨by decide, m', hm', hself, hreport⟩

end Machine

end ChipEight
