/-
What the virtual operations compute, in the terms the sequences use them for:
sign masks, word extensions, and shifts by way of a power of two or of a
bitmask.
-/
import LightningJolt.Run
import LightningJolt.Arith

namespace LightningJolt

/-! ## Bitmasks -/

/-- A bitmask stands for the shift amount its trailing zeros count. -/
theorem trailingZeros_shiftRightBitmask {s : Nat} (hs : s < 64) :
    trailingZeros (shiftRightBitmask s) = s := by
  have h : ∀ s : Fin 64, trailingZeros (shiftRightBitmask s) = s := by decide
  exact h ⟨s, hs⟩

theorem and_0x3f_lt (b : U64) : (b &&& 0x3f).toNat < 64 := by
  have h : (b &&& 0x3f).toNat ≤ (0x3f : U64).toNat := by
    rw [BitVec.toNat_and]
    exact Nat.and_le_right
  exact Nat.lt_succ_of_le h

theorem and_0x3f_eq (b : U64) : (b &&& 0x3f).toNat = b.toNat % 64 := by
  rw [BitVec.toNat_and]
  exact Nat.and_two_pow_sub_one_eq_mod b.toNat 6

/-! ## Words and signs -/

theorem eval_movsign (a imm : U64) :
    IOp.eval .VirtualMovsign a imm = if a.msb then -1 else 0 := by
  have hand : a &&& 0x8000000000000000 = if a.msb then BitVec.twoPow 64 63 else 0 := by
    rw [BitVec.msb_eq_getLsbD_last]
    exact BitVec.and_twoPow a 63
  simp only [IOp.eval, hand]
  cases a.msb <;> rfl

theorem eval_signExtendWord (a imm : U64) :
    IOp.eval .VirtualSignExtendWord a imm = signExtendWord a := by
  simp only [IOp.eval, signExtendWord]
  ext i hi
  rw [BitVec.getElem_sshiftRight, BitVec.getElem_signExtend]
  by_cases h : i < 32
  · have h1 : 32 + i < 64 := by omega
    simp [h, h1, BitVec.getLsbD_eq_getElem hi]
  · have h1 : ¬ 32 + i < 64 := by omega
    simp [h, h1, BitVec.msb_eq_getLsbD_last]

theorem eval_zeroExtendWord (a imm : U64) :
    IOp.eval .VirtualZeroExtendWord a imm = zeroExtendWord a := by
  refine BitVec.eq_of_toNat_eq ?_
  have h : (a &&& 0xffffffff).toNat = a.toNat % 2 ^ 32 := by
    rw [BitVec.toNat_and]
    exact Nat.and_two_pow_sub_one_eq_mod a.toNat 32
  simp only [IOp.eval, zeroExtendWord, lowWord]
  rw [h]
  simp only [BitVec.toNat_setWidth]
  omega

theorem eval_srai (a : U64) {s : Nat} (hs : s < 64) :
    ShiftIOp.eval .VirtualSRAI a (shiftRightBitmask s) = a.sshiftRight s := by
  simp only [ShiftIOp.eval, wrappingSar, trailingZeros_shiftRightBitmask hs, Nat.mod_eq_of_lt hs]

theorem eval_srli (a : U64) {s : Nat} (hs : s < 64) :
    ShiftIOp.eval .VirtualSRLI a (shiftRightBitmask s) = a >>> s := by
  simp only [ShiftIOp.eval, wrappingShr, trailingZeros_shiftRightBitmask hs, Nat.mod_eq_of_lt hs]

theorem eval_srl (a b imm : U64) :
    ShiftROp.eval .VirtualSRL a (IOp.eval .VirtualShiftRightBitmask b imm) =
      a >>> (b.toNat % 64) := by
  have hb := and_0x3f_lt b
  simp only [ShiftROp.eval, IOp.eval, wrappingShr, trailingZeros_shiftRightBitmask hb,
    Nat.mod_eq_of_lt hb]
  rw [and_0x3f_eq]

theorem mul_one_shiftLeft (a : U64) (s : Nat) : a * ((1 : U64) <<< s) = a <<< s := by
  rw [show (1 : U64) <<< s = BitVec.twoPow 64 s from (BitVec.twoPow_eq 64 s).symm,
    BitVec.mul_twoPow_eq_shiftLeft]

theorem eval_sll (a b imm : U64) :
    ROp.eval .MUL a (IOp.eval .VirtualPow2 b imm) = a <<< (b.toNat % 64) := by
  simp only [ROp.eval, IOp.eval]
  exact mul_one_shiftLeft a _

/-! ## Assertions -/

section Assertions

variable {a b : U64} {imm : Int}

@[simp] theorem holds_assertEQ : AssertOp.holds .VirtualAssertEQ a b 0 = true ↔ a = b := by
  simp [AssertOp.holds]

@[simp] theorem holds_assertLTE : AssertOp.holds .VirtualAssertLTE a b imm = true ↔ a ≤ b := by
  simp [AssertOp.holds]

@[simp] theorem holds_assertValidDiv0 :
    AssertOp.holds .VirtualAssertValidDiv0 a b imm = true ↔ a ≠ 0 ∨ b = -1 := by
  simp [AssertOp.holds]

@[simp] theorem holds_assertValidUnsignedRemainder :
    AssertOp.holds .VirtualAssertValidUnsignedRemainder a b imm = true ↔ b = 0 ∨ a < b := by
  simp [AssertOp.holds]

@[simp] theorem holds_assertMulUNoOverflow :
    AssertOp.holds .VirtualAssertMulUNoOverflow a b imm = true ↔ a.toNat * b.toNat < 2 ^ 64 := by
  simp [AssertOp.holds]

end Assertions

/-! ## Arithmetic -/

@[simp] theorem eval_add (a b : U64) : ROp.eval .ADD a b = a + b := rfl
@[simp] theorem eval_sub (a b : U64) : ROp.eval .SUB a b = a - b := rfl
@[simp] theorem eval_mul (a b : U64) : ROp.eval .MUL a b = a * b := rfl
@[simp] theorem eval_xor (a b : U64) : ROp.eval .XOR a b = a ^^^ b := rfl
@[simp] theorem eval_addi (a imm : U64) : IOp.eval .ADDI a imm = a + imm := rfl

/-- The sequences' conditional negation, by the mask of a sign. -/
theorem xor_sra_sub (r a : U64) :
    (r ^^^ a.sshiftRight 63) - a.sshiftRight 63 = signedRemainder a r :=
  xor_sshiftRight_sub (by decide) r a

theorem mulhu_toNat (a b : U64) : (ROp.eval .MULHU a b).toNat = a.toNat * b.toNat / 2 ^ 64 := by
  have hlt : a.toNat * b.toNat < 2 ^ 128 := by
    have := a.isLt
    have := b.isLt
    nlinarith
  simp only [ROp.eval, BitVec.toNat_setWidth, BitVec.toNat_ushiftRight, BitVec.toNat_mul,
    Nat.shiftRight_eq_div_pow]
  rw [Nat.mod_eq_of_lt (a := a.toNat) (by omega), Nat.mod_eq_of_lt (a := b.toNat) (by omega),
    Nat.mod_eq_of_lt hlt]
  omega

theorem toInt_mul_range (a b : U64) :
    -2 ^ 126 ≤ a.toInt * b.toInt ∧ a.toInt * b.toInt ≤ 2 ^ 126 := by
  have ha := toInt_range (by decide) a
  have hb := toInt_range (by decide) b
  norm_num at ha hb ⊢
  constructor <;> nlinarith

/-- `MULH` is the floor of the signed product over `2 ^ 64`. -/
theorem eval_mulh_toInt (a b : U64) :
    (SeqROp.eval .MULH a b).toInt = a.toInt * b.toInt / 2 ^ 64 := by
  obtain ⟨hlo, hhi⟩ := toInt_mul_range a b
  have hprod : (a.signExtend 128 * b.signExtend 128).toInt = a.toInt * b.toInt := by
    rw [BitVec.toInt_mul, BitVec.toInt_signExtend_of_le (by decide),
      BitVec.toInt_signExtend_of_le (by decide)]
    apply Int.bmod_eq_of_le <;> push_cast <;> omega
  have hshift : ((a.signExtend 128 * b.signExtend 128).sshiftRight 64).toInt =
      a.toInt * b.toInt / 2 ^ 64 := by
    rw [BitVec.toInt_sshiftRight, hprod, Int.shiftRight_eq_div_pow]
    push_cast
    rfl
  simp only [SeqROp.eval]
  rw [← BitVec.signExtend_eq_setWidth_of_le _ (by decide),
    BitVec.toInt_signExtend_eq_toInt_bmod_of_le _ (by decide), hshift]
  apply Int.bmod_eq_of_le <;> push_cast <;> omega

/-- The value of the `MULH` sequence. -/
theorem eval_mulhSequence (a b imm : U64) :
    ROp.eval .MULHU a b + IOp.eval .VirtualMovsign a imm * b + IOp.eval .VirtualMovsign b imm * a =
      SeqROp.eval .MULH a b := by
  have hmask : ∀ x y : U64, IOp.eval .VirtualMovsign x imm * y = if x.msb then -y else 0 := by
    intro x y
    rw [eval_movsign]
    cases x.msb with
    | true =>
      simp only [if_true]
      exact neg_one_mul y
    | false => simp
  rw [hmask, hmask]
  refine BitVec.toInt_inj.mp ?_
  rw [signed_high (by decide) (mulhu_toNat a b), eval_mulh_toInt]

end LightningJolt
