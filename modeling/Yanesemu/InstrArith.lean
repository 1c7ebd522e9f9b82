import Yanesemu.CpuEffects

/-!
# The instruction functions in numbers

`adc`, `sbc` and the comparisons work in `int`, the shifts in bytes. Here is what they make of
their operand as equations between numbers, with the carry as a digit, and the flags they leave:
Z and N always come from the byte that is kept.
-/

namespace Yanesemu

theorem truthy_and_80 (v : Uint8) : truthy (v &&& 0x80) = v.msb := by
  have hbit : truthy (v &&& 0x80) = v.getLsbD 7 := truthy_and_twoPow (i := 7) v (by decide)
  rw [hbit, BitVec.msb_eq_getLsbD_last]

/-- Bit 7 of an `int` is the sign of its low byte. -/
theorem truthy_and_80_int (x : Uint32) : truthy (x &&& 0x80) = (x.setWidth 8 : Uint8).msb := by
  have hbit : truthy (x &&& 0x80) = x.getLsbD 7 := truthy_and_twoPow (i := 7) x (by decide)
  rw [hbit, BitVec.msb_eq_getLsbD_last]
  simp

theorem toNat_ofBool {w : ℕ} (hw : 0 < w) (b : Bool) : (ofBool w b).toNat = b.toNat := by
  cases b with
  | false => simp
  | true => exact (BitVec.toNat_ofNat 1 w).trans (Nat.mod_eq_of_lt (Nat.one_lt_two_pow hw.ne'))

theorem msb_iff (v : Uint8) : v.msb = true ↔ 128 ≤ v.toNat := by
  rw [BitVec.msb_eq_decide]
  simp

/-- Z and N as a result byte leaves them. -/
def ProcStatus.ShowsResult (p : ProcStatus) (v : Uint8) : Prop :=
  (p.zero = true ↔ v = 0) ∧ p.neg = v.msb

theorem ProcStatus.showsResult_setZN (p : ProcStatus) (v : Uint8) :
    (p.setZN v).ShowsResult v := ⟨beq_iff_eq, truthy_and_80 v⟩

namespace Cpu

/-! ### Addition and subtraction -/

/-- The `int` sum of `adc` and `sbc`. -/
def intSum (r : Regs) (v : Uint8) : Uint32 :=
  r.acc.setWidth 32 + v.setWidth 32 + ofBool 32 r.flags.carry

theorem toNat_intSum (r : Regs) (v : Uint8) :
    (intSum r v).toNat = r.acc.toNat + v.toNat + r.flags.carry.toNat := by
  have hacc := r.acc.isLt
  have hv := v.isLt
  have hc := r.flags.carry.toNat_le
  unfold intSum
  rw [BitVec.toNat_add, BitVec.toNat_add, BitVec.toNat_setWidth, BitVec.toNat_setWidth,
    toNat_ofBool (by decide)]
  omega

/-- The registers after `adc`, or after `sbc` with its complemented operand `v`. -/
def summed (r : Regs) (v ovArg : Uint8) : Regs := (addWithCarry { r := r } v ovArg).r

variable (r : Regs) (v ovArg : Uint8)

theorem summed_showsResult : (summed r v ovArg).flags.ShowsResult (summed r v ovArg).acc :=
  ⟨beq_iff_eq, truthy_and_80_int (intSum r v)⟩

theorem toNat_summed_acc :
    (summed r v ovArg).acc.toNat = (r.acc.toNat + v.toNat + r.flags.carry.toNat) % 256 := by
  rw [← toNat_intSum]
  exact BitVec.toNat_setWidth 8 (intSum r v)

theorem summed_carry :
    (summed r v ovArg).flags.carry =
      decide (256 ≤ r.acc.toNat + v.toNat + r.flags.carry.toNat) := by
  have hacc := r.acc.isLt
  have hv := v.isLt
  have hc := r.flags.carry.toNat_le
  have hsum := toNat_intSum r v
  have hint : (intSum r v).toInt = ((intSum r v).toNat : ℤ) :=
    BitVec.toInt_eq_toNat_of_lt (by omega)
  have hff : (0xFF : Uint32).toInt = 255 := by decide
  show (0xFF : Uint32).slt (intSum r v) = _
  rw [BitVec.slt_eq_decide, hint, hff, hsum]
  exact decide_eq_decide.mpr (by omega)

/-- **One digit of a sum.** -/
theorem summed_radix :
    (summed r v ovArg).acc.toNat + 256 * (summed r v ovArg).flags.carry.toNat =
      r.acc.toNat + v.toNat + r.flags.carry.toNat := by
  have hacc := r.acc.isLt
  have hv := v.isLt
  have hc := r.flags.carry.toNat_le
  rw [toNat_summed_acc, summed_carry]
  by_cases h : 256 ≤ r.acc.toNat + v.toNat + r.flags.carry.toNat
  · rw [decide_eq_true h, Bool.toNat_true]
    omega
  · rw [decide_eq_false h, Bool.toNat_false]
    omega

/-- The V flag compares signs: of the accumulator before and after, and of `ovArg`. -/
theorem summed_ov :
    (summed r v ovArg).flags.ov =
      ((r.acc.msb ^^ (summed r v ovArg).acc.msb) && !(r.acc.msb ^^ ovArg.msb)) := by
  have hmask : (0x80 : Uint32) = BitVec.twoPow 32 7 := by decide
  have hkeep : (summed r v ovArg).acc = (intSum r v).setWidth 8 := rfl
  show truthy ((r.acc.setWidth 32 ^^^ intSum r v) &&&
    ~~~(r.acc.setWidth 32 ^^^ ovArg.setWidth 32) &&& 0x80) = _
  rw [hmask, truthy_and_twoPow _ (by decide), hkeep]
  simp [BitVec.msb_eq_getLsbD_last]

/-! ### Comparisons -/

/-- The `int` difference of `cmp`, `cpx` and `cpy`. -/
def intDiff (a v : Uint8) : Uint32 := a.setWidth 32 - v.setWidth 32

theorem toInt_intDiff (a v : Uint8) : (intDiff a v).toInt = (a.toNat : ℤ) - v.toNat := by
  have ha := a.isLt
  have hv := v.isLt
  have hwide (b : Uint8) (hb : b.toNat < 2 ^ 8) : (b.setWidth 32).toInt = (b.toNat : ℤ) := by
    rw [BitVec.toInt_eq_toNat_of_lt] <;> rw [BitVec.toNat_setWidth] <;> omega
  unfold intDiff
  rw [BitVec.toInt_sub, hwide a ha, hwide v hv]
  exact Int.bmod_eq_of_le (by omega) (by omega)

/-- The flags after a comparison of `a` with `v`. -/
structure ComparesTo (p : ProcStatus) (a v : Uint8) : Prop where
  zero : p.zero = true ↔ a = v
  carry : p.carry = true ↔ v.toNat ≤ a.toNat
  neg : p.neg = (a - v).msb

theorem setWidth_intDiff (a v : Uint8) : (intDiff a v).setWidth 8 = a - v := by
  have ha := a.isLt
  have hv := v.isLt
  apply BitVec.eq_of_toNat_eq
  unfold intDiff
  rw [BitVec.toNat_setWidth, BitVec.toNat_sub, BitVec.toNat_sub, BitVec.toNat_setWidth,
    BitVec.toNat_setWidth]
  omega

/-- The flags of `cmp`, `cpx` and `cpy` on the `int` difference. -/
theorem comparesTo_intDiff (p : ProcStatus) (a v : Uint8) :
    ComparesTo { p with
      zero := intDiff a v == 0
      neg := truthy (intDiff a v &&& 0x80)
      carry := (0 : Uint32).sle (intDiff a v) } a v where
  zero := by
    rw [beq_iff_eq, ← BitVec.toInt_inj, toInt_intDiff, ← BitVec.toNat_inj]
    show (a.toNat : ℤ) - v.toNat = 0 ↔ _
    omega
  carry := by
    show (0 : Uint32).sle (intDiff a v) = true ↔ _
    rw [BitVec.sle_eq_decide, toInt_intDiff, decide_eq_true_eq]
    show (0 : ℤ) ≤ _ ↔ _
    omega
  neg := by
    show truthy (intDiff a v &&& 0x80) = _
    rw [truthy_and_80_int, setWidth_intDiff]

/-- The register a comparison is about. -/
def InstrRead.compared : InstrRead → Option Reg8
  | cmp => some .acc
  | cpx => some .x
  | cpy => some .y
  | _ => none

theorem compare_comparesTo {name : InstrRead} {reg : Reg8} (hname : name.compared = some reg) :
    ComparesTo (name.regs v r).flags (reg.get r) v := by
  cases name <;> cases hname <;> exact comparesTo_intDiff _ _ _

/-! ### Shifts and counts -/

/-- The byte each instruction makes of `v`, as the manual has it; `c` is the carry it finds. -/
def InstrMod.number (c : Bool) (v : ℕ) : InstrMod → ℕ
  | inc => (v + 1) % 256
  | dec => (v + 255) % 256
  | asl => 2 * v % 256
  | lsr => v / 2
  | rol => (2 * v + c.toNat) % 256
  | ror => v / 2 + 128 * c.toNat

/-- The carry each instruction leaves. -/
def InstrMod.carryOut (c : Bool) (v : ℕ) : InstrMod → Bool
  | inc | dec => c
  | asl | rol => decide (128 ≤ v)
  | lsr | ror => decide (v % 2 = 1)

theorem InstrMod.regs_showsResult (name : InstrMod) :
    (name.regs v r).flags.ShowsResult (name.result v r) := by
  cases name <;> exact ProcStatus.showsResult_setZN _ _

theorem toNat_rol : ∀ (v : Uint8) (c : Bool),
    (v <<< 1 ||| ofBool 8 c).toNat = (2 * v.toNat + c.toNat) % 256 := by
  decide +kernel

theorem toNat_ror : ∀ (v : Uint8) (c : Bool),
    (v >>> 1 ||| ofBool 8 c <<< 7).toNat = v.toNat / 2 + 128 * c.toNat := by
  decide +kernel

theorem InstrMod.toNat_result (name : InstrMod) :
    (name.result v r).toNat = name.number r.flags.carry v.toNat := by
  have hv := v.isLt
  cases name with
  | inc => exact BitVec.toNat_add v 1
  | dec =>
    show (v - 1).toNat = (v.toNat + 255) % 256
    rw [BitVec.toNat_sub]
    show (256 - 1 + v.toNat) % 256 = _
    rw [Nat.add_comm]
  | asl =>
    show (v <<< 1).toNat = 2 * v.toNat % 256
    rw [BitVec.toNat_shiftLeft, Nat.shiftLeft_eq, Nat.mul_comm]
  | lsr =>
    show (v >>> 1).toNat = v.toNat / 2
    rw [BitVec.toNat_ushiftRight, Nat.shiftRight_eq_div_pow]
  | rol => exact toNat_rol v r.flags.carry
  | ror => exact toNat_ror v r.flags.carry

theorem truthy_and_one (v : Uint8) : truthy (v &&& 1) = decide (v.toNat % 2 = 1) := by
  have hbit : truthy (v &&& 1) = v.getLsbD 0 := truthy_and_twoPow (i := 0) v (by decide)
  rw [hbit, BitVec.getLsbD, Nat.testBit_zero]

theorem InstrMod.regs_carry (name : InstrMod) :
    (name.regs v r).flags.carry = name.carryOut r.flags.carry v.toNat := by
  have hhigh : truthy (v &&& 0x80) = decide (128 ≤ v.toNat) := by
    rw [truthy_and_80, BitVec.msb_eq_decide]
  cases name with
  | inc | dec => rfl
  | asl | rol => exact hhigh
  | lsr | ror => exact truthy_and_one v

end Cpu

end Yanesemu
