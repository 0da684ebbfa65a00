/-
The advice of the divisions: the quotient and the remainder `trace` supplies
against the checks of the sequences.
-/
import LightningJolt.Division

namespace LightningJolt

/-! ## Signed division -/

section Signed

variable {x y : U32}

theorem signedRemainder_abs {w : Nat} (a : BitVec w) : signedRemainder a a.abs = a := by
  simp only [signedRemainder, BitVec.abs]
  split
  · exact neg_neg a
  · rfl

theorem divAdvice_checks (a b : U64) : DivChecks a b (divAdvice a b).1 (divAdvice a b).2 := by
  have hhigh : ∀ {q d : U64}, (q * d).toInt = q.toInt * d.toInt →
      SeqROp.eval .MULH q d = (q * d).sshiftRight 63 :=
    fun h => (high_eq_sign_iff (by decide) (eval_mulh_toInt _ _)).mpr h
  by_cases hb : b = 0
  · have hd : ROp.eval .VirtualChangeDivisor a b = 0 := by
      rw [changeDivisor_of_ne (.inr (by rw [hb]; decide)), hb]
    simp only [DivChecks, divAdvice, if_pos hb, hd]
    refine ⟨.inr trivial, hhigh (by simp), ?_, .inl (signedRemainder_zero 0)⟩
    rw [mul_zero, zero_add, signedRemainder_abs]
  by_cases hov : a = BitVec.intMin 64 ∧ b = -1
  · have hd : ROp.eval .VirtualChangeDivisor a b = 1 := by
      simp only [ROp.eval, if_pos hov]
    have hone : (1 : U64).toInt = 1 := by decide
    simp only [DivChecks, divAdvice, if_neg hb, if_pos hov, hd]
    have hlt : (0 : U64) < signedRemainder 1 1 := by decide
    refine ⟨.inl hb, hhigh ?_, ?_, .inr hlt⟩
    · rw [mul_one, hone, mul_one]
    · rw [signedRemainder_zero, add_zero, mul_one]
  · have hmin : a ≠ BitVec.intMin 64 ∨ b ≠ -1 := not_and_or.mp hov
    simp only [DivChecks, divAdvice, if_neg hb, if_neg hov, changeDivisor_of_ne hmin]
    refine ⟨.inl hb, hhigh (sdiv_mul_toInt (by decide) hmin), ?_, .inr (abs_srem_lt (by decide) hb)⟩
    rw [signedRemainder_abs_srem, sdiv_mul_add_srem (by decide) hmin]

theorem setWidth_sra_eq_zero_iff (x : U32) :
    (x.setWidth 64 : U64).sshiftRight 31 = 0 ↔ x.toNat < 2 ^ 31 := by
  have hx := x.isLt
  have hto : (x.setWidth 64 : U64).toInt = x.toNat := by
    rw [BitVec.toInt_setWidth]
    apply Int.bmod_eq_of_le <;> push_cast <;> omega
  have hzero : (0 : U64).toInt = 0 := rfl
  rw [← BitVec.toInt_inj, BitVec.toInt_sshiftRight, hto, Int.shiftRight_eq_div_pow, hzero]
  push_cast
  omega

theorem abs_setWidth (x : U32) : (x.abs.setWidth 64 : U64) = (x.signExtend 64).abs := by
  obtain ⟨hx, -⟩ := abs_toNat_le (by decide) x
  obtain ⟨hX, -⟩ := abs_toNat_le (by decide) (x.signExtend 64)
  rw [signExtend_toInt] at hX
  refine BitVec.eq_of_toNat_eq ?_
  rw [BitVec.toNat_setWidth_of_le (by decide)]
  omega

/-- The magnitude of a word fits 31 bits, that of the least one apart. -/
theorem abs_toNat_lt_iff (x : U32) : x.abs.toNat < 2 ^ 31 ↔ x ≠ BitVec.intMin 32 := by
  obtain ⟨habs, -⟩ := abs_toNat_le (by decide) x
  have hx := toInt_range (by decide) x
  have hmin : (BitVec.intMin 32).toInt = -2 ^ 31 := by decide
  rw [Ne, ← BitVec.toInt_inj, hmin]
  omega

/-- The advice of `DIVW` and `REMW` fails one check: the magnitude of the
least word, as the remainder of a division by zero, has bit 31. -/
theorem divWAdvice_checks_iff (x y : U32) :
    DivWChecks (x.signExtend 64) (y.signExtend 64) (divWAdvice x y).1 (divWAdvice x y).2 ↔
      ¬ (x = BitVec.intMin 32 ∧ y = 0) := by
  simp only [DivWChecks, changeDivisorW_signExtend, wordSignedRemainder_signExtend]
  by_cases hy : y = 0
  · have hd : (wordDivisor x y).signExtend 64 = 0 := by rw [hy, wordDivisor_zero]
    have hq : (-1 : U32).signExtend 64 = (-1 : U64) := by decide
    have hsum : (-1 : U64) * 0 + signedRemainder (x.signExtend 64) (x.abs.setWidth 64) =
        x.signExtend 64 := by
      rw [mul_zero, zero_add, abs_setWidth, signedRemainder_abs]
    simp only [divWAdvice, if_pos hy, hd, hq]
    rw [setWidth_sra_eq_zero_iff, abs_toNat_lt_iff]
    constructor
    · rintro ⟨-, -, hne, -⟩ ⟨hmin, -⟩
      exact hne hmin
    · intro h
      exact ⟨.inr trivial, by decide, fun hmin => h ⟨hmin, hy⟩, hsum, .inl (signedRemainder_zero 0)⟩
  have hne : y.signExtend 64 ≠ 0 := fun h => hy (signExtend_inj.mp h)
  refine iff_of_true ?_ fun h => hy h.2
  by_cases hov : x = BitVec.intMin 32 ∧ y = -1
  · simp only [divWAdvice, if_neg hy, if_pos hov.symm, wordDivisor_overflow hov]
    refine ⟨.inl hne, by decide, by decide, ?_, .inr (by decide)⟩
    rw [signedRemainder_zero, add_zero, mul_one, hov.1]
  · have hmin : x ≠ BitVec.intMin 32 ∨ y ≠ -1 := not_and_or.mp hov
    have hd : wordDivisor x y = y := if_neg hov
    have hlt : (x.srem y).abs.toNat < y.abs.toNat := abs_srem_lt (by decide) hy
    obtain ⟨-, hle⟩ := abs_toNat_le (by decide) y
    simp only [divWAdvice, if_neg hy, if_neg (fun h => hov (And.symm h)), hd]
    refine ⟨.inl hne, signExtendWord_signExtend _, ?_, ?_, .inr ?_⟩
    · rw [setWidth_sra_eq_zero_iff]
      omega
    · rw [abs_setWidth, ← srem_signExtend, ← sdiv_signExtend hmin, signedRemainder_abs_srem,
        sdiv_mul_add_srem (by decide) (.inl (signExtend_ne_intMin x))]
    · rw [abs_setWidth, ← srem_signExtend]
      exact abs_srem_lt (by decide) hne

end Signed

/-! ## Unsigned division -/

theorem udiv_checks {a b q : U64} (hq : b ≠ 0 → q = a / b) : DivUChecks a b q := by
  by_cases hb : b = 0
  · have hzero : (0 : U64).toNat = 0 := rfl
    simp only [DivUChecks, hb, mul_zero, hzero]
    exact ⟨by decide, BitVec.le_def.mpr (Nat.zero_le _), .inl trivial⟩
  · have hdiv := Nat.div_mul_le_self a.toNat b.toNat
    have hov : q.toNat * b.toNat < 2 ^ 64 := by
      rw [hq hb, BitVec.toNat_udiv]
      omega
    have hmul : (q * b).toNat = a.toNat / b.toNat * b.toNat := by
      rw [BitVec.toNat_mul, Nat.mod_eq_of_lt hov, hq hb, BitVec.toNat_udiv]
    have hle : q * b ≤ a := by
      rw [BitVec.le_def, hmul]
      exact hdiv
    refine ⟨hov, hle, .inr ?_⟩
    have hpos : 0 < b.toNat := Nat.pos_of_ne_zero fun h => hb (BitVec.eq_of_toNat_eq h)
    have hmod := Nat.mod_lt a.toNat hpos
    have hsplit := Nat.div_add_mod' a.toNat b.toNat
    rw [BitVec.lt_def, BitVec.toNat_sub_of_le hle, hmul]
    omega

theorem divuAdvice_checks (a b : U64) :
    (b ≠ 0 ∨ divuAdvice a b = -1) ∧ DivUChecks a b (divuAdvice a b) := by
  refine ⟨?_, udiv_checks fun hb => if_neg hb⟩
  by_cases hb : b = 0
  · exact .inr (if_pos hb)
  · exact .inl hb

theorem divuwAdvice_checks (a b : U64) :
    DivUChecks (zeroExtendWord a) (zeroExtendWord b) (divuwAdvice (lowWord a) (lowWord b)) ∧
      (zeroExtendWord b ≠ 0 ∨ signExtendWord (divuwAdvice (lowWord a) (lowWord b)) = -1) := by
  constructor
  · refine udiv_checks fun hb => ?_
    rw [divuwAdvice, if_neg fun h => hb (zeroExtendWord_eq_zero.mpr h), zeroExtendWord_div]
  · by_cases hb : lowWord b = 0
    · right
      rw [divuwAdvice, if_pos hb]
      decide
    · exact .inl fun h => hb (zeroExtendWord_eq_zero.mp h)

/-! ## What `trace` supplies -/

namespace SeqROp

/-- The quotient and the remainder `trace` computes; the unsigned sequences
take the quotient alone. -/
def advice (op : SeqROp) (a b : U64) : U64 × U64 :=
  match op with
  | .DIV | .REM => divAdvice a b
  | .DIVW | .REMW => divWAdvice (lowWord a) (lowWord b)
  | .DIVU | .REMU => (divuAdvice a b, 0)
  | .DIVUW | .REMUW => (divuwAdvice (lowWord a) (lowWord b), 0)
  | _ => (0, 0)

/-- The operands of a signed word division that its range check of the
remainder rejects. -/
def Rejects (op : SeqROp) (a b : U64) : Prop :=
  (op = .DIVW ∨ op = .REMW) ∧ lowWord a = BitVec.intMin 32 ∧ lowWord b = 0

end SeqROp

section Divisions

variable {op : SeqROp} {o : FormatR} {cpu : Cpu} {a b : U64}

theorem fillAdvice_division (hop : op.isDivision) :
    (SeqOp.r op o).fillAdvice cpu (op.inlineSequence o firstVirtualRegister) =
      .some (forgeAdvice [(op.advice (cpu.x.read o.rs1) (cpu.x.read o.rs2)).1,
        (op.advice (cpu.x.read o.rs1) (cpu.x.read o.rs2)).2]
          (op.inlineSequence o firstVirtualRegister)) := by
  cases op with
  | DIV | REM | DIVW | REMW | DIVU | REMU | DIVUW | REMUW => rfl
  | _ => exact absurd hop (by decide)

/-- The trace of a division is that of its sequence with the advice. -/
theorem traceRaw_division (inlines : Inlines) {i : Instruction} (hi : i.op = .seq (.r op o))
    (hop : op.isDivision) :
    i.traceRaw inlines cpu = BasicInstruction.traceAll (BasicInstruction.finalize
      i.address i.isCompressed (forgeAdvice [(op.advice (cpu.x.read o.rs1) (cpu.x.read o.rs2)).1,
        (op.advice (cpu.x.read o.rs1) (cpu.x.read o.rs2)).2]
          (op.inlineSequence o firstVirtualRegister))) cpu := by
  rw [Instruction.traceRaw_seq inlines hi]
  simp only [SeqOp.inlineSequence, SeqOp.reserve, Option.bind_eq_bind, Option.bind_some,
    fillAdvice_division hop, SeqOp.release]
  exact Option.bind_fun_some _

theorem advice_checks_iff (hop : op.isDivision) :
    op.Checks a b (op.advice a b).1 (op.advice a b).2 ↔ ¬ op.Rejects a b := by
  have hword : DivWChecks (signExtendWord a) (signExtendWord b)
      (divWAdvice (lowWord a) (lowWord b)).1 (divWAdvice (lowWord a) (lowWord b)).2 ↔
        ¬ (lowWord a = BitVec.intMin 32 ∧ lowWord b = 0) := divWAdvice_checks_iff _ _
  cases op with
  | DIVW | REMW => exact hword.trans (not_congr (by simp [SeqROp.Rejects]))
  | DIV | REM => exact iff_of_true (divAdvice_checks a b) (by simp [SeqROp.Rejects])
  | DIVU => exact iff_of_true (divuAdvice_checks a b) (by simp [SeqROp.Rejects])
  | REMU => exact iff_of_true (divuAdvice_checks a b).2 (by simp [SeqROp.Rejects])
  | DIVUW => exact iff_of_true (divuwAdvice_checks a b) (by simp [SeqROp.Rejects])
  | REMUW => exact iff_of_true (divuwAdvice_checks a b).1 (by simp [SeqROp.Rejects])
  | _ => exact absurd hop (by decide)

/-- **Division by advice is complete, the least word over zero apart.** The
sequence with the advice of `trace` leaves the registers of `exec` exactly for
the operands that are not rejected; there an assertion fails. -/
theorem trace_division_iff (inlines : Inlines) {i : Instruction} (hi : i.op = .seq (.r op o))
    (hop : op.isDivision) (ho : o.Architectural) (hrd : o.rd ≠ 0) :
    (∃ cycles cpu' access cpuExec, i.traceRaw inlines cpu = .some (cycles, cpu') ∧
      i.execute cpu = .some (access, cpuExec) ∧ cpu'.architectural = cpuExec.architectural) ↔
        ¬ op.Rejects (cpu.x.read o.rs1) (cpu.x.read o.rs2) := by
  have hexec : i.execute cpu = .some (.noOp, cpu.writeRegister o.rd
      (op.eval (cpu.x.read o.rs1) (cpu.x.read o.rs2))) := by
    simp only [Instruction.execute, hi]
    rfl
  rw [← advice_checks_iff hop, traceRaw_division inlines hi hop]
  constructor
  · rintro ⟨cycles, cpu', access, cpuExec, h, -, -⟩
    have hmap := congrArg (Option.map fun p : List Cycle × Cpu => p.2.architectural) h
    exact ((trace_forged_division hop ho hrd).mp hmap).1
  · intro h
    obtain ⟨⟨cycles, cpu'⟩, hp, hregs⟩ :=
      Option.map_eq_some_iff.mp ((trace_forged_division hop ho hrd).mpr ⟨h, rfl⟩)
    exact ⟨cycles, cpu', _, _, hp, hexec, hregs⟩

/-- `-7 / 2` in words. -/
theorem trace_division_iff_divw :
    let cpu := (Cpu.new.writeRegister 5 (-7)).writeRegister 6 2
    let i : Instruction := ⟨.seq (.r .DIVW ⟨7, 5, 6⟩), 0, .none, false, false⟩
    (∃ cycles cpu' access cpuExec,
      i.traceRaw (fun _ _ _ => .none) cpu = .some (cycles, cpu') ∧
      i.execute cpu = .some (access, cpuExec) ∧ cpu'.architectural = cpuExec.architectural) ↔
        ¬ SeqROp.Rejects .DIVW (cpu.x.read 5) (cpu.x.read 6) := by
  intro cpu i
  have hop : SeqROp.isDivision .DIVW := by decide
  have ho : FormatR.Architectural ⟨7, 5, 6⟩ := ⟨by decide, by decide, by decide⟩
  exact trace_division_iff _ rfl hop ho (by decide)

/-- The least word over zero: `exec` writes the quotient -1, and `trace`
panics on the assertion that bit 31 of the remainder's magnitude is clear. -/
theorem trace_divw_least_by_zero :
    let cpu := Cpu.new.writeRegister 5 0xffffffff80000000
    let i : Instruction := ⟨.seq (.r .DIVW ⟨7, 5, 6⟩), 0, .none, false, false⟩
    (i.execute cpu).map (fun p => p.2.x.read 7) = .some (-1) ∧
      (i.traceRaw (fun _ _ _ => .none) cpu).isNone := by
  decide

end Divisions

end LightningJolt
