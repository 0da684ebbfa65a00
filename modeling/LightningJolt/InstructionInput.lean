/-
The instruction inputs against the operand selection of the circuit
(`jolt-core/src/zkvm/spartan/instruction_input.rs`): the relation the
instruction-input sumcheck proves, on the cycles of every trace.
-/
import LightningJolt.LookupQuery
import LightningJolt.DivisionAdvice

namespace LightningJolt

/-! ## The relation -/

/-- A flag as the field element the prover multiplies with. -/
def BasicOp.selects (op : BasicOp) (flag : InstructionFlags) : Int :=
  if flag ∈ op.instructionFlags then 1 else 0

/-- The inputs of a cycle are the operands its flags select. -/
def Cycle.InputsMatch (c : Cycle) : Prop :=
  ∃ left right, c.toInstructionInputs = .some (left, right) ∧
    (left.toNat : Int) = c.instruction.op.selects .LeftOperandIsRs1Value * c.rs1Value.toNat +
      c.instruction.op.selects .LeftOperandIsPC * c.instruction.address.toNat ∧
    right = c.instruction.op.selects .RightOperandIsRs2Value * c.rs2Value.toNat +
      c.instruction.op.selects .RightOperandIsImm * c.instruction.op.normalize.imm

/-- The operations whose inputs are the selected operands on all values. -/
def BasicOp.isUniform : BasicOp → Bool
  | .r op _ => op ≠ .VirtualChangeDivisorW
  | .i op o => (op ≠ .VirtualPow2 && op ≠ .VirtualShiftRightBitmask) || o.imm = 0
  | .VirtualLW _ | .VirtualSW _ => false
  | _ => true

variable {c : Cycle}

theorem inputsMatch_of_uniform (h : c.instruction.op.isUniform) : c.InputsMatch := by
  unfold Cycle.InputsMatch Cycle.toInstructionInputs
  cases hop : c.instruction.op with
  | r op o =>
    rw [hop] at h
    cases op with
    | VirtualChangeDivisorW => exact absurd h (by simp [BasicOp.isUniform])
    | _ => exact ⟨_, _, rfl, by simp [BasicOp.selects, BasicOp.instructionFlags],
        by simp [BasicOp.selects, BasicOp.instructionFlags]⟩
  | i op o =>
    rw [hop] at h
    cases op with
    | VirtualPow2 | VirtualShiftRightBitmask =>
      have himm : o.imm = 0 := by simpa [BasicOp.isUniform] using h
      exact ⟨_, _, rfl, by simp [BasicOp.selects, BasicOp.instructionFlags],
        by simp [BasicOp.selects, BasicOp.instructionFlags, BasicOp.normalize, himm]⟩
    | _ => exact ⟨_, _, rfl, by simp [BasicOp.selects, BasicOp.instructionFlags],
        by simp [BasicOp.selects, BasicOp.instructionFlags, BasicOp.normalize]⟩
  | u op o =>
    cases op with
    | LUI | AUIPC => exact ⟨_, _, rfl, by simp [BasicOp.selects, BasicOp.instructionFlags],
        by simp [BasicOp.selects, BasicOp.instructionFlags, BasicOp.normalize]⟩
  | VirtualLW | VirtualSW =>
    rw [hop] at h
    exact absurd h (by simp [BasicOp.isUniform])
  | _ => exact ⟨_, _, rfl, by simp [BasicOp.selects, BasicOp.instructionFlags],
      by simp [BasicOp.selects, BasicOp.instructionFlags, BasicOp.normalize]⟩

/-- The dividend of a word division enters as its low 32 bits. -/
theorem inputsMatch_changeDivisorW {o : FormatR}
    (hop : c.instruction.op = .r .VirtualChangeDivisorW o) :
    c.InputsMatch ↔ c.rs1Value.toNat < 2 ^ 32 := by
  have hlow : (zeroExtendWord c.rs1Value).toNat = c.rs1Value.toNat % 2 ^ 32 := by
    rw [zeroExtendWord_toNat, lowWord, BitVec.toNat_setWidth]
  unfold Cycle.InputsMatch Cycle.toInstructionInputs
  simp only [hop, BasicOp.selects, BasicOp.instructionFlags, BasicOp.normalize]
  constructor
  · rintro ⟨left, right, heq, hleft, -⟩
    cases heq
    rw [hlow] at hleft
    simp only [List.mem_cons, true_or, if_true] at hleft
    have hlt := Nat.mod_lt c.rs1Value.toNat (show 0 < 2 ^ 32 by decide)
    push_cast at hleft
    norm_num at hleft
    omega
  · intro h
    refine ⟨_, _, rfl, ?_, by simp⟩
    rw [hlow, Nat.mod_eq_of_lt h]
    simp

/-! ## What sequences emit -/

theorem rewritable_uniform : Rewritable fun op => op.isUniform where
  nop := by decide
  withRd op h := by cases op <;> exact h
  advice _ _ _ _ := rfl

theorem uniform_of_encodable {op : BasicOp} (h : op.isEncodable) : op.isUniform := by
  cases op with
  | r op o => cases op <;> first | rfl | exact absurd h Bool.false_ne_true
  | i op o => cases op <;> first | rfl | exact absurd h Bool.false_ne_true
  | VirtualLW | VirtualSW => exact absurd h Bool.false_ne_true
  | _ => rfl

theorem uniform_of_emitted {op : BasicOp} (h : op.emittedByInlines) : op.isUniform := by
  obtain ⟨-, h⟩ := Bool.and_eq_true_iff.mp h
  cases op with
  | r op o => exact (Bool.and_eq_true_iff.mp h).2
  | i op o => exact h
  | VirtualLW | VirtualSW => exact absurd h Bool.false_ne_true
  | _ => rfl

/-- The word divisions alone emit a `VirtualChangeDivisorW`. -/
theorem uniform_of_sequence {op : SeqOp} {next : Nat} {ops : List BasicOp}
    (hop : ∀ o, op ≠ .r .DIVW o ∧ op ≠ .r .REMW o) (h : op.inlineSequence next = .some ops) :
    ops.all (·.isUniform) = true := by
  cases op with
  | r op o =>
    cases op with
    | DIVW => exact absurd rfl (hop o).1
    | REMW => exact absurd rfl (hop o).2
    | _ =>
      cases h
      rfl
  | i op o => cases op <;> cases h <;> rfl
  | load op o => cases op <;> cases h <;> rfl
  | store op o => cases op <;> cases h <;> rfl
  | amo op width o => cases op <;> cases width <;> cases h <;> rfl
  | lr width o => cases width <;> cases h <;> rfl
  | sc width o => cases width <;> cases h <;> rfl
  | advice op o => cases op <;> cases h <;> rfl
  | CSRRW o =>
    rcases CSRRW.sequence_cases h with rfl | ⟨vr, -, ⟨-, rfl⟩ | ⟨-, rfl⟩ | ⟨-, rfl⟩⟩ <;> rfl
  | CSRRS o =>
    rcases CSRRS.sequence_cases h with rfl | ⟨vr, -, rfl | ⟨-, rfl⟩ | ⟨-, rfl⟩ | ⟨-, rfl⟩⟩ <;> rfl
  | ECALL o | MRET o =>
    cases h
    rfl

section Traces

variable {inlines : Inlines} {i : Instruction} {cpu cpu' : Cpu} {cycles : List Cycle}

/-- The operations of a decoded instruction, or of its rewriting, that is not
a word division. -/
theorem uniform_of_operations (hdec : i.op.Decoded) {op : Op}
    (hop : op = i.op ∨ op = i.op.withRd firstVirtualRegister)
    (hdiv : ∀ o, op ≠ .seq (.r .DIVW o) ∧ op ≠ .seq (.r .REMW o)) {next : Nat}
    (hnext : firstVirtualRegister ≤ next) {ops : List BasicOp}
    (h : op.operations inlines next = .some ops) : ∀ b ∈ ops, b.isUniform := by
  cases op with
  | basic bop =>
    cases h
    refine List.forall_mem_singleton.mpr ?_
    cases hi : i.op with
    | basic op' =>
      have hu := uniform_of_encodable (hdec.encodable op' hi)
      rw [hi] at hop
      rcases hop with hop | hop
      · cases hop
        exact hu
      · cases hop
        exact rewritable_uniform.withRd op' hu
    | seq op' =>
      rw [hi] at hop
      rcases hop with hop | hop <;> cases hop
    | inline op' =>
      rw [hi] at hop
      rcases hop with hop | hop <;> cases hop
  | seq sop =>
    have hsop : ∀ o, sop ≠ .r .DIVW o ∧ sop ≠ .r .REMW o := fun o =>
      ⟨fun h => (hdiv o).1 (congrArg _ h), fun h => (hdiv o).2 (congrArg _ h)⟩
    exact List.all_eq_true.mp (uniform_of_sequence hsop h)
  | inline iop =>
    obtain ⟨reg, -, rfl⟩ := Option.map_eq_some_iff.mp h
    exact fun b hb => uniform_of_emitted (reg.emitted _ _ hnext b hb)

/-- Up to the change of the divisor: the operands sign-extended. -/
def wordDivisionPrefix (o : FormatR) (q r : U64) : List BasicOp :=
  [.VirtualAdvice ⟨40, 0⟩ q, .VirtualAdvice ⟨41, 0⟩ r,
   .i .VirtualSignExtendWord ⟨46, o.rs1, 0⟩, .i .VirtualSignExtendWord ⟨45, o.rs2, 0⟩,
   .assert .VirtualAssertValidDiv0 ⟨45, 40, 0⟩]

theorem wordDivision_split {o : FormatR} {op : SeqROp} (hop : op = .DIVW ∨ op = .REMW) (q r : U64) :
    ∃ rest, forgeAdvice [q, r] (op.inlineSequence o firstVirtualRegister) =
        wordDivisionPrefix o q r ++ .r .VirtualChangeDivisorW ⟨42, 46, 45⟩ :: rest ∧
      rest.all (·.isUniform) = true := by
  rcases hop with rfl | rfl <;> exact ⟨_, rfl, rfl⟩

theorem run_wordDivisionPrefix {o : FormatR} (ho : o.Architectural) {address q r : U64} {cpu1 : Cpu}
    (h : runOps address (wordDivisionPrefix o q r) cpu = .some cpu1) :
    cpu1.x.read 46 = signExtendWord (cpu.x.read o.rs1) := by
  obtain ⟨-, h1, h2⟩ := ho
  simp (disch := omega) only [wordDivisionPrefix, runOps_advice, runOps_i, runOps_assert, runOps_nil,
    Cpu.writeRegister_x, Registers.read_write_ne, eval_signExtendWord] at h
  split at h
  · cases h
    simp (disch := omega) [Registers.read_write_ne]
  · cases h

theorem signExtendWord_lt_iff (a : U64) :
    (signExtendWord a).toNat < 2 ^ 32 ↔ (lowWord a).msb = false := by
  rw [signExtendWord_eq, BitVec.toNat_signExtend]
  have hlt := (lowWord a).isLt
  rw [BitVec.toNat_setWidth_of_le (by decide)]
  cases (lowWord a).msb with
  | true =>
    refine iff_of_false ?_ Bool.noConfusion
    rw [if_pos rfl]
    omega
  | false =>
    refine iff_of_true ?_ rfl
    rw [if_neg Bool.false_ne_true]
    omega

theorem inputsMatch_wordDivision {o : FormatR} {op : SeqROp} (hop : op = .DIVW ∨ op = .REMW)
    (ho : o.Architectural) (hrd : o.rd ≠ 0) {address q r : U64} {isCompressed : Bool}
    (h : BasicInstruction.traceAll (BasicInstruction.finalize address isCompressed
      (forgeAdvice [q, r] (op.inlineSequence o firstVirtualRegister))) cpu = .some (cycles, cpu')) :
    (∀ c ∈ cycles, c.InputsMatch) ↔ (lowWord (cpu.x.read o.rs1)).msb = false := by
  have hdiv : op.isDivision := by rcases hop with rfl | rfl <;> rfl
  have hne := @forgeAdvice_rd_ne [q, r] _ (division_rd_ne hdiv hrd)
  obtain ⟨rest, hsplit, hrest⟩ := wordDivision_split (o := o) hop q r
  rw [hsplit] at h hne
  rw [BasicInstruction.traceAll_eq_raw (fun j hj => (finalize_all hne hj).1)] at h
  obtain ⟨c, cpu1, hc, hpre, hcop, hrs1, hothers⟩ :=
    BasicInstruction.traceAllRaw_at h BasicInstruction.finalize_ops BasicInstruction.finalize_address
  have hvalue : c.rs1Value = signExtendWord (cpu.x.read o.rs1) := by
    rw [Cycle.rs1Value, hrs1, ← run_wordDivisionPrefix ho hpre]
    rfl
  have hcmatch : c.InputsMatch ↔ (lowWord (cpu.x.read o.rs1)).msb = false := by
    rw [inputsMatch_changeDivisorW hcop, hvalue, signExtendWord_lt_iff]
  rw [← hcmatch]
  refine ⟨fun hall => hall c hc, fun hmatch d hd => ?_⟩
  rcases hothers d hd with rfl | hpre' | hrest'
  · exact hmatch
  · have huniform : (wordDivisionPrefix o q r).all (·.isUniform) = true := rfl
    exact inputsMatch_of_uniform (List.all_eq_true.mp huniform _ hpre')
  · exact inputsMatch_of_uniform (List.all_eq_true.mp hrest _ hrest')

/-- The word division that `op` rewrites. -/
theorem wordDivision_of_withRd {op : Op} {rd : Nat} {o : FormatR} {rop : SeqROp}
    (h : op.withRd rd = .seq (.r rop o)) : ∃ o', op = .seq (.r rop o') := by
  cases op with
  | basic bop => cases h
  | inline iop => cases h
  | seq sop =>
    cases sop with
    | r rop' o' =>
      cases h
      exact ⟨o', rfl⟩
    | _ => cases h

theorem inputsMatch_other (hdec : i.op.Decoded)
    (hword : ¬ ∃ o op, i.op = .seq (.r op o) ∧ (op = .DIVW ∨ op = .REMW) ∧ o.rd ≠ 0)
    (h : i.trace inlines cpu = .some (cycles, cpu')) : ∀ c ∈ cycles, c.InputsMatch := by
  by_cases hx0 : ∃ o op, i.op = .seq (.r op o) ∧ (op = .DIVW ∨ op = .REMW)
  · obtain ⟨o, op, hi, hop⟩ := hx0
    have hrd : o.rd = 0 := by
      by_contra hne
      exact hword ⟨o, op, hi, hop, hne⟩
    have hzero : i.op.rd = .some 0 := by
      rw [hi, ← hrd]
      rfl
    have hseq : i.inlineSequence inlines = .some [.nop i.address i.isCompressed] := by
      rw [Instruction.inlineSequence, if_pos hzero, hi]
      rfl
    rw [Instruction.trace, if_pos hzero, hseq] at h
    intro c hc
    have hmem := (BasicInstruction.traceAllRaw_traced h c hc).1
    refine inputsMatch_of_uniform ?_
    rw [List.mem_singleton.mp hmem]
    rfl
  · have hops : ∀ op, op = i.op ∨ op = i.op.withRd firstVirtualRegister → ∀ next,
        firstVirtualRegister ≤ next → ∀ ops, op.operations inlines next = .some ops →
          ∀ b ∈ ops, b.isUniform := by
      intro op hop next hnext ops hops
      have hnot : ∀ rop o, rop = SeqROp.DIVW ∨ rop = .REMW → op ≠ .seq (.r rop o) := by
        rintro rop o hrop rfl
        rcases hop with hop | hop
        · exact hx0 ⟨o, rop, hop.symm, hrop⟩
        · obtain ⟨o', ho'⟩ := wordDivision_of_withRd hop.symm
          exact hx0 ⟨o', rop, ho', hrop⟩
      exact uniform_of_operations hdec hop
        (fun o => ⟨hnot _ o (.inl rfl), hnot _ o (.inr rfl)⟩) hnext hops
    obtain ⟨is, cpu1, cpu2, hraw, his⟩ := trace_emitted rewritable_uniform hops h
    intro c hc
    exact inputsMatch_of_uniform (his _ (BasicInstruction.traceAllRaw_traced hraw c hc).1).1

/-- **The inputs match, the dividends of word divisions apart.** Every cycle
of a trace has the inputs its flags select, unless the instruction is a word
division with a negative dividend: its `VirtualChangeDivisorW` takes in the
dividend without the sign extension of its register. -/
theorem trace_inputsMatch_iff (hdec : i.Decodable) (h : i.trace inlines cpu = .some (cycles, cpu')) :
    (∀ c ∈ cycles, c.InputsMatch) ↔
      ¬ ∃ o, (i.op = .seq (.r .DIVW o) ∨ i.op = .seq (.r .REMW o)) ∧ o.rd ≠ 0 ∧
        (lowWord (cpu.x.read o.rs1)).msb = true := by
  by_cases hword : ∃ o op, i.op = .seq (.r op o) ∧ (op = .DIVW ∨ op = .REMW) ∧ o.rd ≠ 0
  · obtain ⟨o, op, hi, hop, hrd⟩ := hword
    have hdiv : op.isDivision := by rcases hop with rfl | rfl <;> rfl
    have ho : o.Architectural := by
      obtain ⟨h1, h2, hd⟩ := hdec.decoded.registers
      rw [hi] at h1 h2 hd
      exact ⟨hd _ rfl, h1 _ rfl, h2 _ rfl⟩
    have hne : i.op.rd ≠ .some 0 := by
      rw [hi]
      exact fun h => hrd (Option.some.inj h)
    rw [Instruction.trace, if_neg hne, traceRaw_division inlines hi hdiv] at h
    rw [inputsMatch_wordDivision hop ho hrd h]
    constructor
    · rintro hpos ⟨o', ho', -, hneg⟩
      have heq : o' = o := by
        rw [hi] at ho'
        rcases ho' with h | h <;> cases h <;> rfl
      rw [heq, hpos] at hneg
      cases hneg
    · intro hnone
      by_contra hneg
      refine hnone ⟨o, ?_, hrd, by simpa using hneg⟩
      rcases hop with rfl | rfl
      · exact .inl hi
      · exact .inr hi
  · refine iff_of_true ?_ ?_
    · exact inputsMatch_other hdec.decoded hword h
    · rintro ⟨o, hi | hi, hrd, -⟩
      · exact hword ⟨o, .DIVW, hi, .inl rfl, hrd⟩
      · exact hword ⟨o, .REMW, hi, .inr rfl, hrd⟩

/-- `7 / 2` in words, whose dividend is not negative. -/
theorem trace_inputsMatch_iff_divw :
    let cpu := (Cpu.new.writeRegister 5 7).writeRegister 6 2
    let i : Instruction := ⟨.seq (.r .DIVW ⟨7, 5, 6⟩), 0, .none, false, false⟩
    ∃ cycles cpu', i.trace (fun _ _ _ => .none) cpu = .some (cycles, cpu') ∧
      ∀ c ∈ cycles, c.InputsMatch := by
  intro cpu i
  have hdec : i.Decodable := ⟨0x0262c3bb, false, by decide⟩
  have hsome : (i.trace (fun _ _ _ => .none) cpu).isSome := by decide +kernel
  obtain ⟨⟨cycles, cpu'⟩, h⟩ := Option.isSome_iff_exists.mp hsome
  refine ⟨cycles, cpu', h, (trace_inputsMatch_iff hdec h).mpr ?_⟩
  rintro ⟨o, ho | ho, -, hneg⟩
  · cases ho
    revert hneg
    decide
  · cases ho

/-- `-7 / 2` in words: the trace has a cycle whose left input, `2 ^ 32 - 7`, is
not the value of its `rs1`, `2 ^ 64 - 7`. -/
theorem trace_divw_negative :
    let cpu := (Cpu.new.writeRegister 5 (-7)).writeRegister 6 2
    let i : Instruction := ⟨.seq (.r .DIVW ⟨7, 5, 6⟩), 0, .none, false, false⟩
    i.Decodable ∧ ∃ cycles cpu' c, i.trace (fun _ _ _ => .none) cpu = .some (cycles, cpu') ∧
      c ∈ cycles ∧ ¬ c.InputsMatch := by
  intro cpu i
  have hdec : i.Decodable := ⟨0x0262c3bb, false, by decide⟩
  have hsome : (i.trace (fun _ _ _ => .none) cpu).isSome := by decide +kernel
  obtain ⟨⟨cycles, cpu'⟩, h⟩ := Option.isSome_iff_exists.mp hsome
  have hdiv : SeqROp.isDivision .DIVW := rfl
  have hraw := h
  rw [Instruction.trace, if_neg (by decide), traceRaw_division _ rfl hdiv] at hraw
  have hiff := inputsMatch_wordDivision (.inl rfl) ⟨by decide, by decide, by decide⟩ (by decide) hraw
  have hneg : ¬ (lowWord (cpu.x.read 5)).msb = false := by decide
  obtain ⟨c, hc⟩ := not_forall.mp fun hall => hneg (hiff.mp hall)
  obtain ⟨hmem, hnot⟩ := Classical.not_imp.mp hc
  exact ⟨hdec, cycles, cpu', c, h, hmem, hnot⟩

end Traces

end LightningJolt
