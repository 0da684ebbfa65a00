/-
The sequences of the multiplications, the shifts and the word arithmetic
(`tracer/src/instruction/*.rs`): each leaves the registers a program sees as
`exec` does, whichever of the operands are the same register.
-/
import LightningJolt.Division

namespace LightningJolt

/-! ## Words -/

theorem lowWord_mul (a b : U64) : lowWord (a * b) = lowWord a * lowWord b :=
  BitVec.setWidth_mul a b (by decide)

theorem lowWord_shiftLeft (a : U64) (s : Nat) : lowWord (a <<< s) = lowWord a <<< s := by
  ext i hi
  simp only [lowWord, BitVec.getElem_setWidth, BitVec.getElem_shiftLeft, BitVec.getLsbD_shiftLeft]
  have hi64 : i < 64 := by omega
  simp only [hi64, decide_true, Bool.true_and]

/-- The low word, shifted to the top and back down further. -/
theorem lowWord_shiftLeft_shiftRight (a : U64) (s : Nat) :
    lowWord ((a <<< 32) >>> (32 + s)) = lowWord a >>> s := by
  ext i hi
  simp only [lowWord, BitVec.getElem_setWidth, BitVec.getElem_ushiftRight,
    BitVec.getLsbD_ushiftRight, BitVec.getLsbD_shiftLeft, BitVec.getLsbD_setWidth]
  have hnot : ¬ (32 + s + i < 32) := by omega
  have hsub : 32 + s + i - 32 = s + i := by omega
  simp only [hnot, hsub, decide_false, Bool.not_false, Bool.and_true]
  congr 1
  simp only [decide_eq_decide]
  omega

/-- The arithmetic shift of a sign-extended word has that of the word in its
low half. -/
theorem lowWord_sshiftRight (a : U64) {s : Nat} (hs : s < 32) :
    lowWord ((signExtendWord a).sshiftRight s) = (lowWord a).sshiftRight s := by
  ext i hi
  simp only [lowWord, signExtendWord, BitVec.getElem_setWidth, BitVec.getElem_sshiftRight,
    BitVec.getLsbD_sshiftRight, BitVec.getLsbD_signExtend]
  have h64 : ¬ 64 ≤ i := by omega
  have hlt : s + i < 64 := by omega
  simp only [h64, hlt, decide_false, decide_true, Bool.not_false, Bool.true_and, if_true]
  by_cases hword : s + i < 32
  · simp [hword, BitVec.getLsbD_eq_getElem]
  · simp [hword]

theorem and_0x1f_lt (b : U64) : (b &&& 0x1f).toNat < 32 := by
  have h : (b &&& 0x1f).toNat ≤ (0x1f : U64).toNat := by
    rw [BitVec.toNat_and]
    exact Nat.and_le_right
  exact Nat.lt_succ_of_le h

theorem and_0x1f_eq (b : U64) : (b &&& 0x1f).toNat = b.toNat % 32 := by
  rw [BitVec.toNat_and]
  exact Nat.and_two_pow_sub_one_eq_mod b.toNat 5

theorem or_32_mod (b : U64) : (b ||| 32).toNat % 64 = 32 + b.toNat % 32 := by
  have hlow : ∀ m : Fin 64, (m.val ||| 32) = 32 + m.val % 32 := by decide
  have hmod : (b.toNat ||| 32) % 2 ^ 6 = b.toNat % 2 ^ 6 ||| 32 % 2 ^ 6 := Nat.or_mod_two_pow
  have hb := hlow ⟨b.toNat % 64, Nat.mod_lt _ (by decide)⟩
  rw [BitVec.toNat_or]
  simp only [Nat.reducePow] at hmod hb
  rw [show (32 : U64).toNat = 32 from rfl, hmod, hb]
  omega

/-! ## The high product of a signed and an unsigned operand -/

theorem mulhsu_toNat_of_msb {a b : U64} (ha : a.msb = true) :
    (SeqROp.eval .MULHSU a b).toNat =
      ((2 ^ 128 - (2 ^ 64 - a.toNat) * b.toNat) % 2 ^ 128) / 2 ^ 64 := by
  have hrange := a.isLt
  have hb := b.isLt
  have hsext : (a.signExtend 128).toNat = 2 ^ 128 - (2 ^ 64 - a.toNat) := by
    rw [BitVec.toNat_signExtend, ha, BitVec.toNat_setWidth]
    simp only [if_true]
    omega
  have hproduct : (2 ^ 128 - (2 ^ 64 - a.toNat)) * b.toNat + (2 ^ 64 - a.toNat) * b.toNat =
      2 ^ 128 * b.toNat := by
    rw [← Nat.add_mul, Nat.sub_add_cancel (by omega)]
  have hlt : (2 ^ 64 - a.toNat) * b.toNat ≤ 2 ^ 64 * 2 ^ 64 :=
    Nat.mul_le_mul (by omega) (by omega)
  simp only [SeqROp.eval, BitVec.toNat_setWidth, BitVec.toNat_ushiftRight, BitVec.toNat_mul, hsext,
    Nat.shiftRight_eq_div_pow]
  rw [Nat.mod_eq_of_lt (a := b.toNat) (by omega)]
  generalize (2 ^ 128 - (2 ^ 64 - a.toNat)) * b.toNat = x at hproduct ⊢
  generalize (2 ^ 64 - a.toNat) * b.toNat = y at hproduct hlt ⊢
  omega

/-- The value of the `MULHSU` sequence: the product of the magnitudes, negated
by complement and carry where the signed operand is negative. -/
theorem eval_mulhsuSequence (a b : U64) :
    let sign := IOp.eval .VirtualMovsign a 0
    let one := IOp.eval .ANDI sign 1
    let magnitude := (a ^^^ sign) + one
    let high := ROp.eval .MULHU magnitude b ^^^ sign
    let low := (magnitude * b) ^^^ sign
    high + ROp.eval .SLTU (low + one) low = SeqROp.eval .MULHSU a b := by
  intro sign one magnitude high low
  have hsign : sign = if a.msb then -1 else 0 := eval_movsign a 0
  cases ha : a.msb with
  | false =>
    simp only [ha] at hsign
    have hone : one = 0 := by
      simp only [one, hsign]
      rfl
    have hmagnitude : magnitude = a := by
      simp only [magnitude, hone, hsign]
      simp
    have hhigh : high = ROp.eval .MULHU a b := by
      simp only [high, hmagnitude, hsign]
      simp
    rw [hhigh, hone, show low + 0 = low from add_zero low]
    have hcarry : ROp.eval .SLTU low low = 0 := by simp [ROp.eval]
    rw [hcarry, add_zero]
    simp only [SeqROp.eval, ROp.eval, BitVec.signExtend_eq_setWidth_of_msb_false ha]
  | true =>
    simp only [ha, if_true] at hsign
    have hone : one = 1 := by
      simp only [one, hsign]
      rfl
    have hnot : ∀ x : U64, x ^^^ sign = ~~~x := fun x => by
      rw [hsign, show (-1 : U64) = BitVec.allOnes 64 from BitVec.neg_one_eq_allOnes,
        BitVec.xor_allOnes]
    have hmagnitude : magnitude = -a := by
      simp only [magnitude, hone, hnot]
      exact (BitVec.neg_eq_not_add a).symm
    have hlo : 2 ^ 63 ≤ a.toNat := by
      rw [BitVec.msb_eq_decide, decide_eq_true_eq] at ha
      exact ha
    have hmagnitudeNat : magnitude.toNat = 2 ^ 64 - a.toNat := by
      rw [hmagnitude, BitVec.toNat_neg]
      exact Nat.mod_eq_of_lt (by omega)
    have hhigh : high.toNat = 2 ^ 64 - 1 - (2 ^ 64 - a.toNat) * b.toNat / 2 ^ 64 := by
      simp only [high, hnot]
      rw [BitVec.toNat_not, mulhu_toNat, hmagnitudeNat]
    have hlow : low.toNat = 2 ^ 64 - 1 - (2 ^ 64 - a.toNat) * b.toNat % 2 ^ 64 := by
      simp only [low, hnot]
      rw [BitVec.toNat_not, BitVec.toNat_mul, hmagnitudeNat]
    -- The carry of the negation's low half: out of a low half of zero.
    have hcarry : (ROp.eval .SLTU (low + one) low).toNat =
        if (2 ^ 64 - a.toNat) * b.toNat % 2 ^ 64 = 0 then 1 else 0 := by
      have hsum : (low + one).toNat = (low.toNat + 1) % 2 ^ 64 := by
        rw [hone, BitVec.toNat_add]
        rfl
      simp only [ROp.eval, BitVec.lt_def, hsum, hlow]
      generalize (2 ^ 64 - a.toNat) * b.toNat = p
      by_cases hp : p % 2 ^ 64 = 0
      · rw [if_pos hp, if_pos (by omega)]
        rfl
      · rw [if_neg hp, if_neg (by omega)]
        rfl
    refine BitVec.eq_of_toNat_eq ?_
    have hlt : (2 ^ 64 - a.toNat) * b.toNat < 2 ^ 64 * 2 ^ 64 :=
      Nat.mul_lt_mul_of_le_of_lt (by omega) b.isLt (by decide)
    rw [mulhsu_toNat_of_msb ha, BitVec.toNat_add, hhigh, hcarry]
    generalize (2 ^ 64 - a.toNat) * b.toNat = p at hlt ⊢
    split <;> omega

/-! ## Shifts -/

theorem eval_sra (a b imm : U64) :
    ShiftROp.eval .VirtualSRA a (IOp.eval .VirtualShiftRightBitmask b imm) =
      a.sshiftRight (b.toNat % 64) := by
  have hb := and_0x3f_lt b
  simp only [ShiftROp.eval, IOp.eval, wrappingSar, trailingZeros_shiftRightBitmask hb,
    Nat.mod_eq_of_lt hb]
  rw [and_0x3f_eq]

theorem eval_SLL (a b : U64) : SeqROp.eval .SLL a b = a <<< (b.toNat % 64) := by
  rw [SeqROp.eval, and_0x3f_eq]

theorem eval_SRL (a b : U64) : SeqROp.eval .SRL a b = a >>> (b.toNat % 64) := by
  rw [SeqROp.eval, and_0x3f_eq]

theorem eval_SRA (a b : U64) : SeqROp.eval .SRA a b = a.sshiftRight (b.toNat % 64) := by
  rw [SeqROp.eval, and_0x3f_eq]

theorem eval_sllw (a b imm : U64) :
    signExtendWord (a * IOp.eval .VirtualPow2W b imm) = SeqROp.eval .SLLW a b := by
  simp only [IOp.eval, SeqROp.eval]
  rw [mul_one_shiftLeft, signExtendWord_eq, lowWord_shiftLeft, and_0x1f_eq]

theorem eval_srlw (a b imm : U64) :
    signExtendWord (ShiftROp.eval .VirtualSRL (IOp.eval .VirtualMULI a ((1 : U64) <<< 32))
      (IOp.eval .VirtualShiftRightBitmask (IOp.eval .ORI b 32) imm)) = SeqROp.eval .SRLW a b := by
  rw [eval_srl]
  simp only [IOp.eval, SeqROp.eval]
  rw [or_32_mod, mul_one_shiftLeft, signExtendWord_eq, lowWord_shiftLeft_shiftRight, and_0x1f_eq]

theorem eval_sraw (a b imm : U64) :
    signExtendWord (ShiftROp.eval .VirtualSRA (signExtendWord a)
      (IOp.eval .VirtualShiftRightBitmask (IOp.eval .ANDI b 0x1f) imm)) = SeqROp.eval .SRAW a b := by
  have hb := and_0x1f_lt b
  rw [eval_sra]
  simp only [IOp.eval, SeqROp.eval]
  rw [Nat.mod_eq_of_lt (by omega), signExtendWord_eq, lowWord_sshiftRight a hb]

theorem eval_slliw (a imm : U64) :
    signExtendWord (IOp.eval .VirtualMULI a ((1 : U64) <<< (imm &&& 0x1f).toNat)) =
      SeqIOp.eval .SLLIW a imm := by
  simp only [IOp.eval, SeqIOp.eval]
  rw [mul_one_shiftLeft, signExtendWord_eq, lowWord_shiftLeft]

theorem eval_srliw (a imm : U64) :
    signExtendWord (ShiftIOp.eval .VirtualSRLI (IOp.eval .VirtualMULI a ((1 : U64) <<< 32))
      (shiftRightBitmask ((imm &&& 0x1f).toNat + 32))) = SeqIOp.eval .SRLIW a imm := by
  have himm := and_0x1f_lt imm
  rw [eval_srli _ (by omega)]
  simp only [IOp.eval, SeqIOp.eval]
  rw [mul_one_shiftLeft, signExtendWord_eq, Nat.add_comm, lowWord_shiftLeft_shiftRight]

theorem eval_sraiw (a imm : U64) :
    signExtendWord (ShiftIOp.eval .VirtualSRAI (signExtendWord a)
      (shiftRightBitmask (imm &&& 0x1f).toNat)) = SeqIOp.eval .SRAIW a imm := by
  have himm := and_0x1f_lt imm
  rw [eval_srai _ (by omega), signExtendWord_eq, lowWord_sshiftRight a himm]
  rfl

/-! ## Runs -/

namespace SeqOp

/-- The instructions whose sequence is plain arithmetic: no advice, no
assertion, no memory. -/
def isArithmetic : SeqOp → Bool
  | .r op _ => !op.isDivision
  | .i .. => true
  | _ => false

/-- The registers are ones a program can name, and the result is kept. -/
def Writes (op : SeqOp) : Prop :=
  (∀ k ∈ op.normalize.rs1, k < 32) ∧ (∀ k ∈ op.normalize.rs2, k < 32) ∧
    ∀ k ∈ op.normalize.rd, k < 32 ∧ k ≠ 0

end SeqOp

section Runs

variable {address : U64} {cpu : Cpu} {next : Nat}

theorem run_r {op : SeqROp} {o : FormatR} (hop : ¬ op.isDivision) (ho : o.Architectural)
    (hrd : o.rd ≠ 0) (hnext : 32 ≤ next) :
    (runOps address (op.inlineSequence o next) cpu).map Cpu.architectural =
      .some (cpu.writeRegister o.rd
        (op.eval (cpu.x.read o.rs1) (cpu.x.read o.rs2))).architectural := by
  obtain ⟨hd, h1, h2⟩ := ho
  cases op with
  | MULH =>
    simp (disch := omega) [SeqROp.inlineSequence, MULH.inlineSequence, Registers.read_write_ne,
      Cpu.architectural_virtual, Cpu.architectural_write, eval_mulhSequence]
  | MULHSU =>
    simp (disch := omega) [SeqROp.inlineSequence, MULHSU.inlineSequence, Registers.read_write_ne,
      Cpu.architectural_virtual, Cpu.architectural_write]
    exact congrArg _ (eval_mulhsuSequence (cpu.x.read o.rs1) (cpu.x.read o.rs2))
  | MULW | ADDW | SUBW =>
    simp (disch := omega) [SeqROp.inlineSequence, MULW.inlineSequence, ADDW.inlineSequence,
      SUBW.inlineSequence, wordSequence, Cpu.architectural_write, eval_signExtendWord,
      SeqROp.eval, signExtendWord_eq, lowWord_mul]
  | SLL =>
    simp (disch := omega) [SeqROp.inlineSequence, SLL.inlineSequence, Registers.read_write_ne,
      Cpu.architectural_virtual, Cpu.architectural_write, -eval_mul, eval_sll, eval_SLL]
  | SRL | SRA =>
    simp (disch := omega) [SeqROp.inlineSequence, SRL.inlineSequence, SRA.inlineSequence,
      rightShiftSequence, Registers.read_write_ne, Cpu.architectural_virtual,
      Cpu.architectural_write, eval_srl, eval_sra, eval_SRL, eval_SRA]
  | SLLW =>
    simp (disch := omega) [SeqROp.inlineSequence, SLLW.inlineSequence, Registers.read_write_ne,
      Cpu.architectural_virtual, Cpu.architectural_write, eval_signExtendWord, eval_sllw]
  | SRLW =>
    simp (disch := omega) [SeqROp.inlineSequence, SRLW.inlineSequence, SLLI.inlineSequence,
      Registers.read_write_ne, Cpu.architectural_virtual, Cpu.architectural_write,
      eval_signExtendWord]
    exact congrArg _ (eval_srlw (cpu.x.read o.rs1) (cpu.x.read o.rs2) 0)
  | SRAW =>
    simp (disch := omega) [SeqROp.inlineSequence, SRAW.inlineSequence, Registers.read_write_ne,
      Cpu.architectural_virtual, Cpu.architectural_write, eval_signExtendWord]
    exact congrArg _ (eval_sraw (cpu.x.read o.rs1) (cpu.x.read o.rs2) 0)
  | _ => exact absurd rfl hop

theorem run_i {op : SeqIOp} {o : FormatI} (hd : o.rd < 32) (hrd : o.rd ≠ 0)
    (hnext : 32 ≤ next) :
    (runOps address (op.inlineSequence o next) cpu).map Cpu.architectural =
      .some (cpu.writeRegister o.rd (op.eval (cpu.x.read o.rs1) o.imm)).architectural := by
  have himm := and_0x3f_lt o.imm
  cases op with
  | ADDIW =>
    simp (disch := omega) [SeqIOp.inlineSequence, ADDIW.inlineSequence, Cpu.architectural_write,
      eval_signExtendWord, SeqIOp.eval]
  | SLLI =>
    simp (disch := omega) only [SeqIOp.inlineSequence, SLLI.inlineSequence, runOps_i, runOps_nil,
      Option.map_some, Cpu.architectural_write]
    exact congrArg _ (congrArg _ (mul_one_shiftLeft (cpu.x.read o.rs1) _))
  | SRLI =>
    simp (disch := omega) only [SeqIOp.inlineSequence, SRLI.inlineSequence, rightShiftISequence,
      runOps_shiftI, runOps_nil, Option.map_some, eval_srli _ himm]
    rfl
  | SRAI =>
    simp (disch := omega) only [SeqIOp.inlineSequence, SRAI.inlineSequence, rightShiftISequence,
      runOps_shiftI, runOps_nil, Option.map_some, eval_srai _ himm]
    rfl
  | SLLIW =>
    simp (disch := omega) [SeqIOp.inlineSequence, SLLIW.inlineSequence, Cpu.architectural_write,
      eval_signExtendWord, -BitVec.toNat_and]
    exact congrArg _ (eval_slliw (cpu.x.read o.rs1) o.imm)
  | SRLIW =>
    simp (disch := omega) [SeqIOp.inlineSequence, SRLIW.inlineSequence, SLLI.inlineSequence,
      Cpu.architectural_virtual, Cpu.architectural_write, eval_signExtendWord, -BitVec.toNat_and]
    exact congrArg _ (eval_srliw (cpu.x.read o.rs1) o.imm)
  | SRAIW =>
    simp (disch := omega) [SeqIOp.inlineSequence, SRAIW.inlineSequence,
      Cpu.architectural_virtual, Cpu.architectural_write, eval_signExtendWord, -BitVec.toNat_and]
    exact congrArg _ (eval_sraiw (cpu.x.read o.rs1) o.imm)

end Runs

/-! ## Traces -/

/-- No operation of an expansion writes `x0`. -/
theorem expansion_rd_ne {op : SeqOp} (hop : op.isArithmetic) (hw : op.Writes) {ops : List BasicOp}
    (hops : op.inlineSequence firstVirtualRegister = .some ops) :
    ∀ b ∈ ops, b.rd ≠ .some 0 := by
  obtain ⟨-, -, hrd⟩ := hw
  cases op with
  | r op o =>
    have hne : o.rd ≠ 0 := (hrd o.rd rfl).2
    cases hops
    cases op with
    | MULH | MULHSU | MULW | ADDW | SUBW | SLL | SLLW | SRL | SRLW | SRA | SRAW =>
      simp [SeqROp.inlineSequence, MULH.inlineSequence, MULHSU.inlineSequence, MULW.inlineSequence,
        ADDW.inlineSequence, SUBW.inlineSequence, wordSequence, SLL.inlineSequence,
        SLLW.inlineSequence, SLLI.inlineSequence, SRL.inlineSequence, SRLW.inlineSequence,
        SRA.inlineSequence, SRAW.inlineSequence, rightShiftSequence, firstVirtualRegister,
        BasicOp.rd, BasicOp.normalize, hne]
    | _ => simp [SeqOp.isArithmetic, SeqROp.isDivision] at hop
  | i op o =>
    have hne : o.rd ≠ 0 := (hrd o.rd rfl).2
    cases hops
    cases op <;>
      simp [SeqIOp.inlineSequence, ADDIW.inlineSequence, SLLI.inlineSequence, SLLIW.inlineSequence,
        SRLI.inlineSequence, SRLIW.inlineSequence, SRAI.inlineSequence, SRAIW.inlineSequence,
        rightShiftISequence, firstVirtualRegister, BasicOp.rd, BasicOp.normalize, hne]
  | _ => exact absurd hop (by simp [SeqOp.isArithmetic])

/-- The run of an expansion, on the operations alone. -/
theorem run_expansion {op : SeqOp} (hop : op.isArithmetic) (hw : op.Writes) (address : U64)
    (cpu : Cpu) :
    ∃ ops access cpuExec, op.inlineSequence firstVirtualRegister = .some ops ∧
      op.exec address cpu = .some (access, cpuExec) ∧
      (runOps address ops cpu).map Cpu.architectural = .some cpuExec.architectural := by
  obtain ⟨h1, h2, hrd⟩ := hw
  cases op with
  | r op o =>
    obtain ⟨hd, hne⟩ := hrd o.rd rfl
    have hdiv : ¬ op.isDivision := by
      intro h
      simp only [SeqOp.isArithmetic, h, Bool.not_true, Bool.false_eq_true] at hop
    exact ⟨_, _, _, rfl, rfl, run_r hdiv ⟨hd, h1 o.rs1 rfl, h2 o.rs2 rfl⟩ hne (by decide)⟩
  | i op o =>
    obtain ⟨hd, hne⟩ := hrd o.rd rfl
    exact ⟨_, _, _, rfl, rfl, run_i hd hne (by decide)⟩
  | _ => exact absurd hop (by simp [SeqOp.isArithmetic])

/-- **The arithmetic expansions equal their instructions.** The sequence of a
multiplication, a shift or a word operation runs through, and leaves `x0` to
`x31` as `exec` does. -/
theorem expansion_eq_exec {op : SeqOp} (hop : op.isArithmetic) (hw : op.Writes) (address : U64)
    (isCompressed : Bool) (cpu : Cpu) :
    ∃ ops cycles cpu' access cpuExec,
      op.inlineSequence firstVirtualRegister = .some ops ∧
      BasicInstruction.traceAll (BasicInstruction.finalize address isCompressed ops) cpu =
        .some (cycles, cpu') ∧
      op.exec address cpu = .some (access, cpuExec) ∧
      cpu'.architectural = cpuExec.architectural := by
  obtain ⟨ops, access, cpuExec, hops, hexec, hrun⟩ := run_expansion hop hw address cpu
  obtain ⟨cpu', hcpu', harch⟩ := Option.map_eq_some_iff.mp hrun
  have htraced : (BasicInstruction.traceAll (BasicInstruction.finalize address isCompressed ops)
      cpu).map Prod.snd = .some cpu' := by
    rw [BasicInstruction.traceAll_finalize (expansion_rd_ne hop hw hops), hcpu']
  obtain ⟨⟨cycles, cpu''⟩, htrace, rfl⟩ := Option.map_eq_some_iff.mp htraced
  exact ⟨ops, cycles, cpu'', access, cpuExec, hops, htrace, hexec, harch⟩

/-- `MULHSU` with every operand one register, of the most negative value. -/
theorem expansion_eq_exec_mulhsu :
    ∃ ops cycles cpu' access cpuExec,
      (SeqOp.r .MULHSU ⟨5, 5, 5⟩).inlineSequence firstVirtualRegister = .some ops ∧
      BasicInstruction.traceAll (BasicInstruction.finalize 0 false ops)
        (Cpu.new.writeRegister 5 (BitVec.intMin 64)) = .some (cycles, cpu') ∧
      (SeqOp.r .MULHSU ⟨5, 5, 5⟩).exec 0 (Cpu.new.writeRegister 5 (BitVec.intMin 64)) =
        .some (access, cpuExec) ∧
      cpu'.architectural = cpuExec.architectural :=
  expansion_eq_exec (by decide)
    ⟨by rintro k ⟨⟩; decide, by rintro k ⟨⟩; decide, by rintro k ⟨⟩; decide⟩ 0 false _

end LightningJolt
