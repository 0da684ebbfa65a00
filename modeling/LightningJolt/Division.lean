/-
Division by advice: what the assertions of each sequence check of an advised
quotient and remainder, that the checks leave the quotient and the remainder
of the division alone, and which of the advice `trace` supplies passes them.
-/
import LightningJolt.Values

namespace LightningJolt

/-- The sequence with the values of a prover in its `VirtualAdvice`
instructions, in their order. -/
def forgeAdvice : List U64 → List BasicOp → List BasicOp
  | v :: vs, .VirtualAdvice o _ :: ops => .VirtualAdvice o v :: forgeAdvice vs ops
  | vs, op :: ops => op :: forgeAdvice vs ops
  | _, [] => []

/-! ## What the sequences check

`a` and `b` are the values of `rs1` and `rs2`, `q` and `r` the advice. -/

/-- `DIV` and `REM`. -/
def DivChecks (a b q r : U64) : Prop :=
  let d := ROp.eval .VirtualChangeDivisor a b
  (b ≠ 0 ∨ q = -1) ∧ SeqROp.eval .MULH q d = (q * d).sshiftRight 63 ∧
    q * d + signedRemainder a r = a ∧ (signedRemainder d d = 0 ∨ r < signedRemainder d d)

/-- The negation of `r` where `a` is negative, by the sign of a word. -/
def wordSignedRemainder (a r : U64) : U64 := (r ^^^ a.sshiftRight 31) - a.sshiftRight 31

/-- `DIVW` and `REMW`, of words sign-extended. -/
def DivWChecks (a b q r : U64) : Prop :=
  let d := ROp.eval .VirtualChangeDivisorW a b
  (b ≠ 0 ∨ q = -1) ∧ signExtendWord q = q ∧ r.sshiftRight 31 = 0 ∧
    q * d + wordSignedRemainder a r = a ∧
    (wordSignedRemainder d d = 0 ∨ r < wordSignedRemainder d d)

/-- The unsigned divisions; `DIVU` and `DIVUW` also check the quotient of a
division by zero. -/
def DivUChecks (a b q : U64) : Prop :=
  q.toNat * b.toNat < 2 ^ 64 ∧ q * b ≤ a ∧ (b = 0 ∨ a - q * b < b)

section Runs

variable {o : FormatR} (ho : o.Architectural) (hrd : o.rd ≠ 0) {address : U64} {cpu : Cpu}
  {q r : U64} {x : Fin 32 → U64}

include ho hrd

-- What the eight sequences are written in, unfolded once for the runs of all.
attribute [local simp] firstVirtualRegister forgeAdvice SRAI.inlineSequence MULH.inlineSequence
  rightShiftISequence divRemWSequence

theorem run_DIV :
    (runOps address (forgeAdvice [q, r] (DIV.inlineSequence o firstVirtualRegister)) cpu).map
        Cpu.architectural = .some x ↔
      DivChecks (cpu.x.read o.rs1) (cpu.x.read o.rs2) q r ∧
        (cpu.writeRegister o.rd q).architectural = x := by
  obtain ⟨hd, h1, h2⟩ := ho
  simp (disch := omega) [DIV.inlineSequence, Registers.read_write_ne,
    Cpu.architectural_virtual, Cpu.architectural_write, eval_mulhSequence, eval_srai, xor_sra_sub,
    DivChecks]

theorem run_REM :
    (runOps address (forgeAdvice [q, r] (REM.inlineSequence o firstVirtualRegister)) cpu).map
        Cpu.architectural = .some x ↔
      DivChecks (cpu.x.read o.rs1) (cpu.x.read o.rs2) q r ∧
        (cpu.writeRegister o.rd (signedRemainder (cpu.x.read o.rs1) r)).architectural = x := by
  obtain ⟨hd, h1, h2⟩ := ho
  simp (disch := omega) [REM.inlineSequence, Registers.read_write_ne,
    Cpu.architectural_virtual, Cpu.architectural_write, eval_mulhSequence, eval_srai, xor_sra_sub,
    DivChecks]

theorem run_DIVW :
    (runOps address (forgeAdvice [q, r] (DIVW.inlineSequence o firstVirtualRegister)) cpu).map
        Cpu.architectural = .some x ↔
      DivWChecks (signExtendWord (cpu.x.read o.rs1)) (signExtendWord (cpu.x.read o.rs2)) q r ∧
        (cpu.writeRegister o.rd (signExtendWord q)).architectural = x := by
  obtain ⟨hd, h1, h2⟩ := ho
  simp (disch := omega) [DIVW.inlineSequence, Registers.read_write_ne,
    Cpu.architectural_virtual, Cpu.architectural_write, eval_signExtendWord, eval_srai,
    DivWChecks, wordSignedRemainder]

theorem run_REMW :
    (runOps address (forgeAdvice [q, r] (REMW.inlineSequence o firstVirtualRegister)) cpu).map
        Cpu.architectural = .some x ↔
      DivWChecks (signExtendWord (cpu.x.read o.rs1)) (signExtendWord (cpu.x.read o.rs2)) q r ∧
        (cpu.writeRegister o.rd (signExtendWord (wordSignedRemainder
          (signExtendWord (cpu.x.read o.rs1)) r))).architectural = x := by
  obtain ⟨hd, h1, h2⟩ := ho
  simp (disch := omega) [REMW.inlineSequence, Registers.read_write_ne,
    Cpu.architectural_virtual, Cpu.architectural_write, eval_signExtendWord, eval_srai,
    DivWChecks, wordSignedRemainder]

theorem run_DIVU :
    (runOps address (forgeAdvice [q, r] (DIVU.inlineSequence o firstVirtualRegister)) cpu).map
        Cpu.architectural = .some x ↔
      ((cpu.x.read o.rs2 ≠ 0 ∨ q = -1) ∧ DivUChecks (cpu.x.read o.rs1) (cpu.x.read o.rs2) q) ∧
        (cpu.writeRegister o.rd q).architectural = x := by
  obtain ⟨hd, h1, h2⟩ := ho
  simp (disch := omega) [DIVU.inlineSequence, Registers.read_write_ne, Cpu.architectural_virtual, Cpu.architectural_write, DivUChecks]

theorem run_REMU :
    (runOps address (forgeAdvice [q, r] (REMU.inlineSequence o firstVirtualRegister)) cpu).map
        Cpu.architectural = .some x ↔
      DivUChecks (cpu.x.read o.rs1) (cpu.x.read o.rs2) q ∧
        (cpu.writeRegister o.rd
          (cpu.x.read o.rs1 - q * cpu.x.read o.rs2)).architectural = x := by
  obtain ⟨hd, h1, h2⟩ := ho
  simp (disch := omega) [REMU.inlineSequence, Registers.read_write_ne, Cpu.architectural_virtual, Cpu.architectural_write, DivUChecks]

theorem run_DIVUW :
    (runOps address (forgeAdvice [q, r] (DIVUW.inlineSequence o firstVirtualRegister)) cpu).map
        Cpu.architectural = .some x ↔
      (DivUChecks (zeroExtendWord (cpu.x.read o.rs1)) (zeroExtendWord (cpu.x.read o.rs2)) q ∧
        (zeroExtendWord (cpu.x.read o.rs2) ≠ 0 ∨ signExtendWord q = -1)) ∧
        (cpu.writeRegister o.rd (signExtendWord q)).architectural = x := by
  obtain ⟨hd, h1, h2⟩ := ho
  simp (disch := omega) [DIVUW.inlineSequence, Registers.read_write_ne, Cpu.architectural_virtual, Cpu.architectural_write,
    eval_signExtendWord, eval_zeroExtendWord, DivUChecks, and_assoc]

theorem run_REMUW :
    (runOps address (forgeAdvice [q, r] (REMUW.inlineSequence o firstVirtualRegister)) cpu).map
        Cpu.architectural = .some x ↔
      DivUChecks (zeroExtendWord (cpu.x.read o.rs1)) (zeroExtendWord (cpu.x.read o.rs2)) q ∧
        (cpu.writeRegister o.rd (signExtendWord (zeroExtendWord (cpu.x.read o.rs1) -
          q * zeroExtendWord (cpu.x.read o.rs2)))).architectural = x := by
  obtain ⟨hd, h1, h2⟩ := ho
  simp (disch := omega) [REMUW.inlineSequence, Registers.read_write_ne, Cpu.architectural_virtual, Cpu.architectural_write,
    eval_signExtendWord, eval_zeroExtendWord, DivUChecks]

end Runs

/-! ## Soundness of the checks -/

theorem changeDivisor_of_ne {a b : U64} (h : a ≠ BitVec.intMin 64 ∨ b ≠ -1) :
    ROp.eval .VirtualChangeDivisor a b = b := by
  simp only [ROp.eval]
  exact if_neg (by tauto)

theorem signedRemainder_zero {w : Nat} (a : BitVec w) : signedRemainder a 0 = 0 := by
  simp [signedRemainder]

theorem DivChecks.sound {a b q r : U64} (h : DivChecks a b q r) :
    q = SeqROp.eval .DIV a b ∧ signedRemainder a r = SeqROp.eval .REM a b := by
  obtain ⟨hdiv0, hhigh, hsum, hrange⟩ := h
  by_cases hb : b = 0
  · subst hb
    rw [changeDivisor_of_ne (.inr (by decide)), mul_zero, zero_add] at hsum
    simp only [SeqROp.eval, if_true]
    exact ⟨hdiv0.resolve_left (by simp), hsum⟩
  by_cases hov : a = BitVec.intMin 64 ∧ b = -1
  · have hd : ROp.eval .VirtualChangeDivisor a b = 1 := by
      simp only [ROp.eval, if_pos hov]
    rw [hd] at hsum hrange
    have hr : r = 0 := by
      rcases hrange with h | h
      · exact absurd h (by decide)
      · have hlt : r.toNat < 1 := h
        exact BitVec.eq_of_toNat_eq (by simpa using hlt)
    rw [hr, signedRemainder_zero, add_zero, mul_one] at hsum
    simp only [SeqROp.eval, if_neg hb, if_pos hov, hr, signedRemainder_zero]
    exact ⟨hsum, trivial⟩
  · have hmin : a ≠ BitVec.intMin 64 ∨ b ≠ -1 := not_and_or.mp hov
    rw [changeDivisor_of_ne hmin] at hhigh hsum hrange
    have hmul := (high_eq_sign_iff (by decide) (eval_mulh_toInt q b)).mp hhigh
    have hr : r < b.abs := hrange.resolve_left (abs_ne_zero (by decide) hb)
    simp only [SeqROp.eval, if_neg hb, if_neg hov]
    exact ⟨(sdiv_of_checks (by decide) hb hmin hmul hsum hr).symm,
      (srem_of_checks (by decide) hb hmul hsum hr).symm⟩

/-! ## Words sign-extended -/

section Words

variable {x y : U32}

theorem lowWord_signExtend (x : U32) : lowWord (x.signExtend 64) = x := by
  ext i hi
  have h64 : i < 64 := by omega
  rw [lowWord, BitVec.getElem_setWidth, BitVec.getLsbD_eq_getElem h64, BitVec.getElem_signExtend,
    dif_pos hi]

@[simp] theorem signExtendWord_signExtend (x : U32) : signExtendWord (x.signExtend 64) = x.signExtend 64 := by
  rw [signExtendWord, ← lowWord, lowWord_signExtend]

theorem signExtend_toInt (x : U32) : (x.signExtend 64).toInt = x.toInt :=
  BitVec.toInt_signExtend_of_le (by decide)

theorem signExtend_inj : x.signExtend 64 = y.signExtend 64 ↔ x = y := by
  constructor
  · intro h
    rw [← lowWord_signExtend x, h, lowWord_signExtend]
  · exact congrArg _

theorem signExtend_msb (x : U32) : (x.signExtend 64).msb = x.msb := by
  rw [BitVec.msb_eq_toInt, BitVec.msb_eq_toInt, signExtend_toInt]

/-- The sign of a word, shifted down from its bit 31. -/
theorem signExtend_sra (x : U32) : (x.signExtend 64).sshiftRight 31 = if x.msb then -1 else 0 := by
  have hx := toInt_range (by decide) x
  have hzero : (0 : U64).toInt = 0 := rfl
  refine BitVec.toInt_inj.mp ?_
  rw [BitVec.toInt_sshiftRight, signExtend_toInt, Int.shiftRight_eq_div_pow, BitVec.msb_eq_toInt]
  by_cases hneg : x.toInt < 0
  · rw [if_pos (by simpa using hneg), neg_one_toInt (by decide)]
    push_cast
    omega
  · rw [if_neg (by simpa using hneg), hzero]
    push_cast
    omega

theorem wordSignedRemainder_signExtend (x : U32) (r : U64) :
    wordSignedRemainder (x.signExtend 64) r = signedRemainder (x.signExtend 64) r := by
  rw [wordSignedRemainder, signExtend_sra, xor_mask_sub, signedRemainder, signExtend_msb]

theorem signExtend_ne_intMin (x : U32) : x.signExtend 64 ≠ BitVec.intMin 64 := by
  have hx := toInt_range (by decide) x
  intro h
  have h' := congrArg BitVec.toInt h
  rw [signExtend_toInt, show (BitVec.intMin 64).toInt = -2 ^ 63 from by decide] at h'
  omega

theorem sdiv_signExtend (h : x ≠ BitVec.intMin 32 ∨ y ≠ -1) :
    (x.signExtend 64).sdiv (y.signExtend 64) = (x.sdiv y).signExtend 64 := by
  refine BitVec.toInt_inj.mp ?_
  rw [BitVec.toInt_sdiv_of_ne_or_ne _ _ (.inl (signExtend_ne_intMin x)), signExtend_toInt,
    signExtend_toInt, signExtend_toInt, BitVec.toInt_sdiv_of_ne_or_ne x y h]

theorem srem_signExtend (x y : U32) :
    (x.signExtend 64).srem (y.signExtend 64) = (x.srem y).signExtend 64 := by
  refine BitVec.toInt_inj.mp ?_
  rw [BitVec.toInt_srem, signExtend_toInt, signExtend_toInt, signExtend_toInt, BitVec.toInt_srem]

/-- The product of two words does not overflow a doubleword. -/
theorem mul_signExtend_toInt (x y : U32) :
    (x.signExtend 64 * y.signExtend 64).toInt = (x.signExtend 64).toInt * (y.signExtend 64).toInt := by
  have hx := toInt_range (by decide) x
  have hy := toInt_range (by decide) y
  rw [BitVec.toInt_mul, signExtend_toInt, signExtend_toInt]
  norm_num at hx hy
  apply Int.bmod_eq_of_le <;> norm_num <;> nlinarith

/-- The divisor of a word division, the overflowing one replaced. -/
def wordDivisor (x y : U32) : U32 := if x = BitVec.intMin 32 ∧ y = -1 then 1 else y

theorem wordDivisor_zero (x : U32) : (wordDivisor x 0).signExtend 64 = 0 := by
  rw [wordDivisor, if_neg (by simp)]
  rfl

theorem wordDivisor_overflow (h : x = BitVec.intMin 32 ∧ y = -1) :
    (wordDivisor x y).signExtend 64 = 1 := by
  rw [wordDivisor, if_pos h]
  decide

theorem changeDivisorW_signExtend (x y : U32) :
    ROp.eval .VirtualChangeDivisorW (x.signExtend 64) (y.signExtend 64) =
      (wordDivisor x y).signExtend 64 := by
  have hx : BitVec.setWidth 32 (x.signExtend 64) = x := lowWord_signExtend x
  have hy : BitVec.setWidth 32 (y.signExtend 64) = y := lowWord_signExtend y
  simp only [ROp.eval, hx, hy, wordDivisor]
  split <;> rfl

/-- The quotient of `DIVW`. -/
def wordQuotient (x y : U32) : U32 :=
  if y = 0 then -1 else if x = BitVec.intMin 32 ∧ y = -1 then x else x.sdiv y

/-- The remainder of `REMW`. -/
def wordRemainder (x y : U32) : U32 :=
  if y = 0 then x else if x = BitVec.intMin 32 ∧ y = -1 then 0 else x.srem y

theorem eval_DIVW (a b : U64) :
    SeqROp.eval .DIVW a b = (wordQuotient (lowWord a) (lowWord b)).signExtend 64 := rfl

theorem eval_REMW (a b : U64) :
    SeqROp.eval .REMW a b = (wordRemainder (lowWord a) (lowWord b)).signExtend 64 := rfl

theorem DivWChecks.sound {q r : U64} (h : DivWChecks (x.signExtend 64) (y.signExtend 64) q r) :
    q = (wordQuotient x y).signExtend 64 ∧
      wordSignedRemainder (x.signExtend 64) r = (wordRemainder x y).signExtend 64 := by
  obtain ⟨hdiv0, hword, -, hsum, hrange⟩ := h
  rw [changeDivisorW_signExtend] at hsum hrange
  rw [wordSignedRemainder_signExtend] at hsum hrange ⊢
  by_cases hy : y = 0
  · rw [hy, wordDivisor_zero, mul_zero, zero_add] at hsum
    have hq : q = -1 := hdiv0.resolve_left (by simp [hy])
    simp only [wordQuotient, wordRemainder, if_pos hy]
    exact ⟨hq, hsum⟩
  by_cases hov : x = BitVec.intMin 32 ∧ y = -1
  · rw [wordDivisor_overflow hov] at hsum hrange
    have hr : r = 0 := by
      rcases hrange with h | h
      · exact absurd h (by decide)
      · have hlt : r.toNat < 1 := h
        exact BitVec.eq_of_toNat_eq (by simpa using hlt)
    rw [hr, signedRemainder_zero, add_zero, mul_one] at hsum
    simp only [wordQuotient, wordRemainder, if_neg hy, if_pos hov, hr, signedRemainder_zero]
    exact ⟨hsum, rfl⟩
  · have hmin : x ≠ BitVec.intMin 32 ∨ y ≠ -1 := not_and_or.mp hov
    have hd : wordDivisor x y = y := if_neg hov
    have hne : y.signExtend 64 ≠ 0 := fun h => hy (signExtend_inj.mp h)
    rw [hd] at hsum hrange
    have hr : r < (y.signExtend 64).abs := hrange.resolve_left (abs_ne_zero (by decide) hne)
    have hq : (lowWord q).signExtend 64 = q := hword
    have hmul : (q * y.signExtend 64).toInt = q.toInt * (y.signExtend 64).toInt := by
      rw [← hq]
      exact mul_signExtend_toInt _ _
    simp only [wordQuotient, wordRemainder, if_neg hy, if_neg hov]
    rw [← sdiv_signExtend hmin, ← srem_signExtend]
    exact ⟨(sdiv_of_checks (by decide) hne (.inl (signExtend_ne_intMin x)) hmul hsum hr).symm,
      (srem_of_checks (by decide) hne hmul hsum hr).symm⟩

end Words

theorem signExtendWord_eq (a : U64) : signExtendWord a = (lowWord a).signExtend 64 := rfl

theorem zeroExtendWord_toNat (a : U64) : (zeroExtendWord a).toNat = (lowWord a).toNat :=
  BitVec.toNat_setWidth_of_le (by decide)

theorem zeroExtendWord_eq_zero {a : U64} : zeroExtendWord a = 0 ↔ lowWord a = 0 := by
  rw [← BitVec.toNat_inj, ← BitVec.toNat_inj, zeroExtendWord_toNat]
  rfl

theorem lowWord_setWidth (x : U32) : lowWord (x.setWidth 64) = x :=
  BitVec.setWidth_setWidth_of_le x (by decide)

theorem zeroExtendWord_div (a b : U64) :
    zeroExtendWord a / zeroExtendWord b = (lowWord a / lowWord b).setWidth 64 := by
  refine BitVec.eq_of_toNat_eq ?_
  rw [BitVec.toNat_udiv, zeroExtendWord_toNat, zeroExtendWord_toNat,
    BitVec.toNat_setWidth_of_le (by decide), BitVec.toNat_udiv]

theorem zeroExtendWord_mod (a b : U64) :
    zeroExtendWord a % zeroExtendWord b = (lowWord a % lowWord b).setWidth 64 := by
  refine BitVec.eq_of_toNat_eq ?_
  rw [BitVec.toNat_umod, zeroExtendWord_toNat, zeroExtendWord_toNat,
    BitVec.toNat_setWidth_of_le (by decide), BitVec.toNat_umod]

/-! ## Unsigned division -/

theorem DivUChecks.sound {a b q : U64} (h : DivUChecks a b q) (hb : b ≠ 0) :
    q = a / b ∧ a - q * b = a % b := by
  obtain ⟨hov, hle, hrange⟩ := h
  have hlt : a - q * b < b := hrange.resolve_left hb
  have hmul : (q * b).toNat = q.toNat * b.toNat := by
    rw [BitVec.toNat_mul, Nat.mod_eq_of_lt hov]
  have hsub : (a - q * b).toNat = a.toNat - q.toNat * b.toNat := by
    rw [BitVec.toNat_sub_of_le hle, hmul]
  have hle' : q.toNat * b.toNat ≤ a.toNat := hmul ▸ hle
  have hlt' : a.toNat - q.toNat * b.toNat < b.toNat := hsub ▸ hlt
  obtain ⟨hdiv, hmod⟩ := (Nat.div_mod_unique (show 0 < b.toNat by omega)).mpr
    ⟨show (a.toNat - q.toNat * b.toNat) + b.toNat * q.toNat = a.toNat by
      rw [mul_comm b.toNat]; omega, hlt'⟩
  exact ⟨BitVec.eq_of_toNat_eq (by rw [BitVec.toNat_udiv, hdiv]),
    BitVec.eq_of_toNat_eq (by rw [BitVec.toNat_umod, hmod, hsub])⟩

/-! ## The eight divisions -/

namespace SeqROp

def isDivision : SeqROp → Bool
  | .DIV | .DIVU | .DIVW | .DIVUW | .REM | .REMU | .REMW | .REMUW => true
  | _ => false

/-- What the assertions of the sequence check, of its operands and advice. -/
def Checks (op : SeqROp) (a b q r : U64) : Prop :=
  match op with
  | .DIV | .REM => DivChecks a b q r
  | .DIVW | .REMW => DivWChecks (signExtendWord a) (signExtendWord b) q r
  | .DIVU => (b ≠ 0 ∨ q = -1) ∧ DivUChecks a b q
  | .REMU => DivUChecks a b q
  | .DIVUW => DivUChecks (zeroExtendWord a) (zeroExtendWord b) q ∧
      (zeroExtendWord b ≠ 0 ∨ signExtendWord q = -1)
  | .REMUW => DivUChecks (zeroExtendWord a) (zeroExtendWord b) q
  | _ => False

/-- What the sequence writes to `rd`. -/
def result (op : SeqROp) (a b q r : U64) : U64 :=
  match op with
  | .DIV | .DIVU => q
  | .DIVW | .DIVUW => signExtendWord q
  | .REM => signedRemainder a r
  | .REMW => signExtendWord (wordSignedRemainder (signExtendWord a) r)
  | .REMU => a - q * b
  | .REMUW => signExtendWord (zeroExtendWord a - q * zeroExtendWord b)
  | _ => 0

end SeqROp

section Divisions

variable {op : SeqROp} {o : FormatR} {address : U64} {cpu : Cpu} {a b q r : U64}

theorem run_division (hop : op.isDivision) (ho : o.Architectural) (hrd : o.rd ≠ 0)
    {x : Fin 32 → U64} :
    (runOps address (forgeAdvice [q, r] (op.inlineSequence o firstVirtualRegister)) cpu).map
        Cpu.architectural = .some x ↔
      op.Checks (cpu.x.read o.rs1) (cpu.x.read o.rs2) q r ∧
        (cpu.writeRegister o.rd (op.result (cpu.x.read o.rs1) (cpu.x.read o.rs2) q r)).architectural =
          x := by
  cases op with
  | DIV => exact run_DIV ho hrd
  | DIVU => exact run_DIVU ho hrd
  | DIVW => exact run_DIVW ho hrd
  | DIVUW => exact run_DIVUW ho hrd
  | REM => exact run_REM ho hrd
  | REMU => exact run_REMU ho hrd
  | REMW => exact run_REMW ho hrd
  | REMUW => exact run_REMUW ho hrd
  | _ => exact absurd hop (by decide)

/-- Advice that passes the checks leaves the result of `exec`. -/
theorem result_of_checks (hop : op.isDivision) (h : op.Checks a b q r) :
    op.result a b q r = op.eval a b := by
  cases op with
  | DIV => exact h.sound.1
  | REM => exact h.sound.2
  | DIVW =>
    have hq := (DivWChecks.sound (x := lowWord a) (y := lowWord b) h).1
    rw [SeqROp.result, eval_DIVW, hq, signExtendWord_signExtend]
  | REMW =>
    have hr := (DivWChecks.sound (x := lowWord a) (y := lowWord b) h).2
    rw [SeqROp.result, eval_REMW, signExtendWord_eq a, hr, signExtendWord_signExtend]
  | DIVU =>
    obtain ⟨hdiv0, hchecks⟩ := h
    by_cases hb : b = 0
    · rw [SeqROp.result, SeqROp.eval, if_pos hb, hdiv0.resolve_left (absurd hb)]
    · rw [SeqROp.result, SeqROp.eval, if_neg hb, (hchecks.sound hb).1]
  | REMU =>
    by_cases hb : b = 0
    · rw [SeqROp.result, SeqROp.eval, if_pos hb, hb, mul_zero, sub_zero]
    · rw [SeqROp.result, SeqROp.eval, if_neg hb, (DivUChecks.sound h hb).2]
  | DIVUW =>
    obtain ⟨hchecks, hdiv0⟩ := h
    by_cases hb : lowWord b = 0
    · rw [SeqROp.result, hdiv0.resolve_left (absurd (zeroExtendWord_eq_zero.mpr hb))]
      simp only [SeqROp.eval, if_pos hb]
      rfl
    · have hb' : zeroExtendWord b ≠ 0 := fun h => hb (zeroExtendWord_eq_zero.mp h)
      rw [SeqROp.result, (hchecks.sound hb').1, zeroExtendWord_div, signExtendWord_eq,
        lowWord_setWidth]
      simp only [SeqROp.eval, if_neg hb]
  | REMUW =>
    by_cases hb : lowWord b = 0
    · rw [SeqROp.result, zeroExtendWord_eq_zero.mpr hb, mul_zero, sub_zero, signExtendWord_eq,
        zeroExtendWord, lowWord_setWidth]
      simp only [SeqROp.eval, if_pos hb]
    · have hb' : zeroExtendWord b ≠ 0 := fun h => hb (zeroExtendWord_eq_zero.mp h)
      rw [SeqROp.result, (DivUChecks.sound h hb').2, zeroExtendWord_mod, signExtendWord_eq,
        lowWord_setWidth]
      simp only [SeqROp.eval, if_neg hb]
  | _ => exact absurd hop (by decide)

theorem forgeAdvice_rd_ne {vs : List U64} {ops : List BasicOp} (h : ∀ op ∈ ops, op.rd ≠ .some 0) :
    ∀ op ∈ forgeAdvice vs ops, op.rd ≠ .some 0 := by
  fun_induction forgeAdvice vs ops with
  | case1 v vs o advice ops ih =>
    obtain ⟨hop, hops⟩ := List.forall_mem_cons.mp h
    exact List.forall_mem_cons.mpr ⟨hop, ih hops⟩
  | case2 vs op ops hne ih =>
    obtain ⟨hop, hops⟩ := List.forall_mem_cons.mp h
    exact List.forall_mem_cons.mpr ⟨hop, ih hops⟩
  | case3 => exact h

theorem division_rd_ne (hop : op.isDivision) (hrd : o.rd ≠ 0) :
    ∀ b ∈ op.inlineSequence o firstVirtualRegister, b.rd ≠ .some 0 := by
  cases op with
  | DIV | REM | DIVW | REMW | DIVU | REMU | DIVUW | REMUW =>
    simp [SeqROp.inlineSequence, DIV.inlineSequence, REM.inlineSequence, DIVW.inlineSequence,
      REMW.inlineSequence, divRemWSequence, DIVU.inlineSequence, REMU.inlineSequence,
      DIVUW.inlineSequence, REMUW.inlineSequence, MULH.inlineSequence, SRAI.inlineSequence,
      rightShiftISequence, firstVirtualRegister, BasicOp.rd, BasicOp.normalize, hrd]
  | _ => exact absurd hop (by decide)

/-- The architectural registers after a forged sequence: `exec`'s, or none
for an assertion that fails. -/
theorem trace_forged_division (hop : op.isDivision) (ho : o.Architectural) (hrd : o.rd ≠ 0)
    {isCompressed : Bool} {x : Fin 32 → U64} :
    (BasicInstruction.traceAll (BasicInstruction.finalize address isCompressed
        (forgeAdvice [q, r] (op.inlineSequence o firstVirtualRegister))) cpu).map
          (fun p => p.2.architectural) = .some x ↔
      op.Checks (cpu.x.read o.rs1) (cpu.x.read o.rs2) q r ∧
        (cpu.writeRegister o.rd (op.eval (cpu.x.read o.rs1) (cpu.x.read o.rs2))).architectural = x := by
  have hmap : ∀ s : Option (List Cycle × Cpu),
      s.map (fun p => p.2.architectural) = (s.map Prod.snd).map Cpu.architectural := by
    intro s
    rw [Option.map_map]
    rfl
  rw [hmap, BasicInstruction.traceAll_finalize (forgeAdvice_rd_ne (division_rd_ne hop hrd)),
    run_division hop ho hrd]
  refine and_congr_right fun h => ?_
  rw [result_of_checks hop h]

/-- **Division by advice is sound.** Whatever values a prover puts in the
`VirtualAdvice` instructions, a sequence whose assertions hold leaves in `rd`
the value of `exec`, and the other registers as they were. -/
theorem division_sound (hop : op.isDivision) (ho : o.Architectural) (hrd : o.rd ≠ 0)
    {isCompressed : Bool} {cycles : List Cycle} {cpu' : Cpu}
    (h : BasicInstruction.traceAll (BasicInstruction.finalize address isCompressed
      (forgeAdvice [q, r] (op.inlineSequence o firstVirtualRegister))) cpu = .some (cycles, cpu')) :
    ∃ access cpuExec, (SeqOp.r op o).exec address cpu = .some (access, cpuExec) ∧
      cpu'.x.read o.rd = cpuExec.x.read o.rd ∧
      ∀ k, k < 32 → k ≠ o.rd → cpu'.x.read k = cpu.x.read k := by
  have hmap := congrArg (Option.map fun p : List Cycle × Cpu => p.2.architectural) h
  obtain ⟨-, heq⟩ := (trace_forged_division hop ho hrd).mp hmap
  refine ⟨_, _, rfl, ?_, ?_⟩
  · exact (congrFun heq ⟨o.rd, ho.rd⟩).symm
  · intro k hk hne
    have hother := congrFun heq ⟨k, hk⟩
    rw [Cpu.architectural_write _ _ hrd ho.rd, Function.update_of_ne (fun h => hne (Fin.ext_iff.mp h))]
      at hother
    exact hother.symm

/-- `-7 / 2` on the quotient and the remainder it has. -/
theorem division_sound_div :
    let cpu := (Cpu.new.writeRegister 5 (-7)).writeRegister 6 2
    let o : FormatR := ⟨7, 5, 6⟩
    ∃ cycles cpu' access cpuExec,
      BasicInstruction.traceAll (BasicInstruction.finalize 0 false
        (forgeAdvice [-3, 1] (SeqROp.inlineSequence .DIV o firstVirtualRegister))) cpu =
          .some (cycles, cpu') ∧
      (SeqOp.r .DIV o).exec 0 cpu = .some (access, cpuExec) ∧
      cpu'.x.read o.rd = cpuExec.x.read o.rd ∧
      ∀ k, k < 32 → k ≠ o.rd → cpu'.x.read k = cpu.x.read k := by
  intro cpu o
  have hsome : (BasicInstruction.traceAll (BasicInstruction.finalize 0 false
      (forgeAdvice [-3, 1] (SeqROp.inlineSequence .DIV o firstVirtualRegister))) cpu).isSome := by
    decide +kernel
  obtain ⟨⟨cycles, cpu'⟩, h⟩ := Option.isSome_iff_exists.mp hsome
  obtain ⟨access, cpuExec, hexec⟩ :=
    division_sound (by decide) ⟨by decide, by decide, by decide⟩ (by decide) h
  exact ⟨cycles, cpu', access, cpuExec, h, hexec⟩

end Divisions

end LightningJolt
