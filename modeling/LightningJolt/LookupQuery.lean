/-
What the prover reads off a cycle (`jolt-core/src/zkvm/instruction`): the
flags of its instruction, the instruction's inputs, and the operands, the
index and the output of its lookup, at a word size of 64.
-/
import LightningJolt.Emission
import LightningJolt.LookupTable

namespace LightningJolt

/-! ## Flags -/

/-- Flags of the R1CS constraints. -/
inductive CircuitFlags
  | AddOperands | SubtractOperands | MultiplyOperands | Load | Store | Jump | WriteLookupOutputToRD
  | VirtualInstruction | Assert | DoNotUpdateUnexpandedPC | Advice | IsCompressed
  | IsFirstInSequence | IsLastInSequence
deriving DecidableEq

inductive InstructionFlags
  | LeftOperandIsPC | RightOperandIsImm | LeftOperandIsRs1Value | RightOperandIsRs2Value | Branch
  | IsNoop
deriving DecidableEq

namespace BasicOp

/-- The circuit flags an operation sets whatever its place in a sequence.
`VirtualLW` and `VirtualSW`, on which the source panics, have none. -/
def circuitFlags : BasicOp → List CircuitFlags
  | .r op _ => match op with
    | .ADD => [.AddOperands, .WriteLookupOutputToRD]
    | .SUB => [.SubtractOperands, .WriteLookupOutputToRD]
    | .MUL | .MULHU => [.MultiplyOperands, .WriteLookupOutputToRD]
    | _ => [.WriteLookupOutputToRD]
  | .i op _ => match op with
    | .ANDI | .ORI | .XORI | .SLTI | .SLTIU | .VirtualMovsign => [.WriteLookupOutputToRD]
    | .VirtualMULI => [.MultiplyOperands, .WriteLookupOutputToRD]
    | _ => [.AddOperands, .WriteLookupOutputToRD]
  | .u .. | .j .. => [.AddOperands, .WriteLookupOutputToRD]
  | .shiftI .. | .shiftR .. => [.WriteLookupOutputToRD]
  | .assert op _ => match op with
    | .VirtualAssertMulUNoOverflow => [.MultiplyOperands, .Assert]
    | _ => [.Assert]
  | .align .. => [.Assert, .AddOperands]
  | .JAL _ | .JALR _ => [.AddOperands, .Jump]
  | .LD _ => [.Load]
  | .SD _ => [.Store]
  | .VirtualAdvice .. | .VirtualAdviceLoad _ | .VirtualAdviceLen _ => [.Advice, .WriteLookupOutputToRD]
  | .noOp => [.DoNotUpdateUnexpandedPC]
  | .branch .. | .VirtualLW _ | .VirtualSW _ | .VirtualHostIo _ | .FENCE | .EBREAK _ => []

/-- `Flags::instruction_flags`. -/
def instructionFlags : BasicOp → List InstructionFlags
  | .r .. | .shiftR .. | .assert .. => [.LeftOperandIsRs1Value, .RightOperandIsRs2Value]
  | .branch .. => [.LeftOperandIsRs1Value, .RightOperandIsRs2Value, .Branch]
  | .i op _ => match op with
    | .VirtualPow2W | .VirtualSignExtendWord | .VirtualZeroExtendWord | .VirtualRev8W =>
      [.LeftOperandIsRs1Value]
    | _ => [.LeftOperandIsRs1Value, .RightOperandIsImm]
  | .u .LUI _ | .j .. => [.RightOperandIsImm]
  | .u .AUIPC _ | .JAL _ => [.LeftOperandIsPC, .RightOperandIsImm]
  | .shiftI .. | .align .. | .JALR _ => [.LeftOperandIsRs1Value, .RightOperandIsImm]
  | .noOp => [.IsNoop]
  | _ => []

end BasicOp

/-- The instructions that set the flags of their place in a sequence. -/
def BasicOp.marksSequence : BasicOp → Bool
  | .noOp | .VirtualHostIo _ | .FENCE | .EBREAK _ => false
  | _ => true

/-- `Flags::circuit_flags`; a no-op carries its one flag alone. -/
def BasicInstruction.circuitFlags (i : BasicInstruction) (flag : CircuitFlags) : Bool :=
  match flag with
  | .VirtualInstruction => i.op.marksSequence && i.virtualSequenceRemaining.isSome
  | .DoNotUpdateUnexpandedPC =>
    i.op = .noOp || (i.op.marksSequence && i.virtualSequenceRemaining.getD 0 != 0)
  | .IsCompressed => i.op ≠ .noOp && i.isCompressed
  | .IsFirstInSequence => i.op ≠ .noOp && i.isFirstInSequence
  | .IsLastInSequence =>
    match i.op with
    | .JALR _ => i.virtualSequenceRemaining == .some 0
    | _ => false
  | flag => flag ∈ i.op.circuitFlags

/-- `InterleavedBitsMarker::is_interleaved_operands`. -/
def BasicInstruction.isInterleavedOperands (i : BasicInstruction) : Bool :=
  !i.circuitFlags .AddOperands && !i.circuitFlags .SubtractOperands &&
    !i.circuitFlags .MultiplyOperands && !i.circuitFlags .Advice

/-! ## Inputs and operands

`none` is the panic on an instruction without a lookup query. -/

namespace Cycle

def rs1Value (c : Cycle) : U64 := c.rs1.getD 0

def rs2Value (c : Cycle) : U64 := c.rs2.getD 0

/-- The value left in `rd`. -/
def rdValue (c : Cycle) : U64 := (c.rd.getD (0, 0)).2

/-- `LookupQuery::to_instruction_inputs`: a `u64` and an `i128`. -/
def toInstructionInputs (c : Cycle) : Option (U64 × Int) :=
  match c.instruction.op with
  | .r .VirtualChangeDivisorW _ => .some (zeroExtendWord c.rs1Value, c.rs2Value.toNat)
  | .r .. | .shiftR .. | .branch .. | .assert .. => .some (c.rs1Value, c.rs2Value.toNat)
  | .i op o => match op with
    | .VirtualPow2 | .VirtualPow2W | .VirtualShiftRightBitmask | .VirtualSignExtendWord
    | .VirtualZeroExtendWord | .VirtualRev8W => .some (c.rs1Value, 0)
    | _ => .some (c.rs1Value, o.imm.toNat)
  | .u .LUI o => .some (0, o.imm.toNat)
  | .u .AUIPC o => .some (c.instruction.address, o.imm.toNat)
  | .j _ o => .some (0, o.imm.toNat)
  | .shiftI _ o => .some (c.rs1Value, o.imm.toNat)
  | .align _ o => .some (c.rs1Value, o.imm.toInt)
  | .JAL o => .some (c.instruction.address, o.imm.toNat)
  | .JALR o => .some (c.rs1Value, o.imm.toNat)
  | .VirtualLW _ | .VirtualSW _ => .none
  | _ => .some (0, 0)

/-- The default of `to_lookup_operands`: the inputs themselves. -/
def plainOperands (x : U64) (y : Int) : U64 × U128 := (x, (BitVec.ofInt 64 y).setWidth 128)

/-- `x as u128 + y as u64 as u128`. -/
def addedOperands (x : U64) (y : Int) : U64 × U128 :=
  (0, x.setWidth 128 + (BitVec.ofInt 64 y).setWidth 128)

/-- `(x as i128 + y) as u128`. -/
def signedAddedOperands (x : U64) (y : Int) : U64 × U128 := (0, BitVec.ofInt 128 (x.toNat + y))

/-- `x as u128 * y as u64 as u128`. -/
def multipliedOperands (x : U64) (y : Int) : U64 × U128 :=
  (0, x.setWidth 128 * (BitVec.ofInt 64 y).setWidth 128)

/-- `LookupQuery::to_lookup_operands`. -/
def toLookupOperands (c : Cycle) : Option (U64 × U128) := do
  let (x, y) ← c.toInstructionInputs
  match c.instruction.op with
  | .r op _ => match op with
    | .ADD => pure (addedOperands x y)
    | .SUB => pure (0, x.setWidth 128 + ((1 : U128) <<< 64 - BitVec.ofInt 128 y))
    | .MUL | .MULHU => pure (multipliedOperands x y)
    | _ => pure (plainOperands x y)
  | .i op _ => match op with
    | .ADDI | .VirtualPow2 | .VirtualPow2W | .VirtualShiftRightBitmask | .VirtualSignExtendWord =>
      pure (addedOperands x y)
    | .VirtualZeroExtendWord => pure (signedAddedOperands x y)
    | .VirtualMULI => pure (multipliedOperands x y)
    | .VirtualRev8W => pure (0, c.rs1Value.setWidth 128)
    | _ => pure (plainOperands x y)
  | .u .AUIPC _ | .JAL _ | .JALR _ | .align .. => pure (signedAddedOperands x y)
  | .j .. => pure (addedOperands x y)
  | .assert .VirtualAssertMulUNoOverflow _ => pure (multipliedOperands x y)
  | .VirtualAdvice _ advice => pure (0, advice.setWidth 128)
  | .VirtualAdviceLoad _ | .VirtualAdviceLen _ => pure (0, c.rdValue.setWidth 128)
  | _ => pure (plainOperands x y)

/-- The instructions that use the right lookup operand as the index. -/
def indexIsOperand : BasicOp → Bool
  | .r op _ => op ∈ [ROp.ADD, .SUB, .MUL, .MULHU]
  | .i op _ => op ∈ [IOp.ADDI, .VirtualMULI, .VirtualPow2, .VirtualPow2W, .VirtualShiftRightBitmask,
      .VirtualSignExtendWord, .VirtualZeroExtendWord, .VirtualRev8W]
  | .u .. | .j .. | .align .. | .JAL _ | .JALR _ | .VirtualAdvice .. | .VirtualAdviceLoad _
  | .VirtualAdviceLen _ => true
  | .assert op _ => op = .VirtualAssertMulUNoOverflow
  | _ => false

/-- `LookupQuery::to_lookup_index`. -/
def toLookupIndex (c : Cycle) : Option U128 := do
  let (x, y) ← c.toLookupOperands
  if c.instruction.op = .noOp then pure 0
  else if indexIsOperand c.instruction.op then pure y
  else pure (interleaveBits x (y.setWidth 64))

/-- `LookupQuery::to_lookup_output`. -/
def toLookupOutput (c : Cycle) : Option U64 := do
  let (x, y) ← c.toInstructionInputs
  let index ← c.toLookupIndex
  let y64 := BitVec.ofInt 64 y
  match c.instruction.op with
  | .r op _ => match op with
    | .ADD => pure (x + y64)
    | .SUB => pure (x - y64)
    | .AND => pure (x &&& y64)
    | .ANDN => pure (x &&& ~~~y64)
    | .OR => pure (x ||| y64)
    | .XOR => pure (x ^^^ y64)
    | .SLT => pure (boolEntry (x.slt y64))
    | .SLTU => pure (boolEntry (x < y64))
    | .MUL => pure (x * y64)
    | .MULHU => pure (((x.setWidth 128 * y64.setWidth 128) >>> 64).setWidth 64)
    | .VirtualChangeDivisor => pure (if x = BitVec.intMin 64 ∧ y64 = -1 then 1 else y64)
    | .VirtualChangeDivisorW =>
      pure (if x.setWidth 32 = BitVec.intMin 32 ∧ y64.setWidth 32 = -1 then 1
        else (y64.setWidth 32).signExtend 64)
    | .VirtualXORROT32 => pure (xorRot 32 x y64)
    | .VirtualXORROT24 => pure (xorRot 24 x y64)
    | .VirtualXORROT16 => pure (xorRot 16 x y64)
    | .VirtualXORROT63 => pure (xorRot 63 x y64)
    | .VirtualXORROTW16 => pure (xorRotW 16 x y64)
    | .VirtualXORROTW12 => pure (xorRotW 12 x y64)
    | .VirtualXORROTW8 => pure (xorRotW 8 x y64)
    | .VirtualXORROTW7 => pure (xorRotW 7 x y64)
  | .i op _ => match op with
    | .ADDI => pure (x + y64)
    | .ANDI => pure (x &&& y64)
    | .ORI => pure (x ||| y64)
    | .XORI => pure (x ^^^ y64)
    | .SLTI => pure (boolEntry (x.slt y64))
    | .SLTIU => pure (boolEntry (x < y64))
    | .VirtualMULI => pure (x * y64)
    | .VirtualMovsign => pure (if x &&& (1 : U64) <<< 63 ≠ 0 then 0xFFFFFFFFFFFFFFFF else 0)
    | .VirtualPow2 => pure ((1 : U64) <<< (index.toNat % 64))
    | .VirtualPow2W => pure ((1 : U64) <<< (index.toNat % 32))
    | .VirtualShiftRightBitmask => pure (shiftRightBitmask (index.toNat % 64))
    | .VirtualSignExtendWord => pure (signExtendHalf (index.setWidth 64 &&& ((1 : U64) <<< 32 - 1)))
    | .VirtualZeroExtendWord => pure (index.setWidth 64 &&& ((1 : U64) <<< 32 - 1))
    | .VirtualRev8W => pure (rev8w c.rs1Value)
  | .u .LUI o => pure o.imm
  | .u .AUIPC _ | .JAL _ => pure (x + y64)
  | .JALR _ => pure ((x + y64) &&& ~~~1)
  | .j op _ => match op with
    | .VirtualPow2I => pure ((1 : U64) <<< (index.toNat % 64))
    | .VirtualPow2IW => pure ((1 : U64) <<< (index.toNat % 32))
    | .VirtualShiftRightBitmaskI => pure (shiftRightBitmask (index.toNat % 64))
  | .shiftI op _ => match op with
    | .VirtualSRLI => pure (srlEntry x y64)
    | .VirtualSRAI => pure (sraEntry x y64)
    | .VirtualROTRI => pure (x.rotateRight (trailingZeros y64))
    | .VirtualROTRIW => pure (((x.setWidth 32).rotateRight (min (trailingZeros y64) 32)).setWidth 64)
  | .shiftR op _ => match op with
    | .VirtualSRL => pure (srlEntry x y64)
    | .VirtualSRA => pure (sraEntry x y64)
  | .branch op _ => match op with
    | .BEQ => pure (boolEntry (x == y64))
    | .BNE => pure (boolEntry (x != y64))
    | .BLT => pure (boolEntry (x.slt y64))
    | .BGE => pure (boolEntry (y64.sle x))
    | .BLTU => pure (boolEntry (x < y64))
    | .BGEU => pure (boolEntry (y64 ≤ x))
  | .assert op _ => match op with
    | .VirtualAssertEQ => pure (boolEntry (x == y64))
    | .VirtualAssertLTE => pure (boolEntry (x ≤ y64))
    | .VirtualAssertValidDiv0 => pure (if x = 0 then boolEntry (y64 == -1) else 1)
    | .VirtualAssertValidUnsignedRemainder => pure (boolEntry (y64 == 0 || x < y64))
    | .VirtualAssertMulUNoOverflow => pure (boolEntry (x.toNat * y64.toNat < 2 ^ 64))
  | .align op _ => match op with
    | .VirtualAssertHalfwordAlignment => pure (boolEntry (index.toNat % 2 == 0))
    | .VirtualAssertWordAlignment => pure (boolEntry (index.toNat % 4 == 0))
  | .VirtualAdvice _ advice => pure advice
  | .VirtualAdviceLoad _ | .VirtualAdviceLen _ => pure c.rdValue
  | _ => pure 0

end Cycle

/-! ## Tables -/

/-- `InstructionLookup::lookup_table`. -/
def BasicOp.lookupTable : BasicOp → Option LookupTables
  | .r op _ => match op with
    | .ADD | .SUB | .MUL => .some .RangeCheck
    | .AND => .some .And
    | .ANDN => .some .Andn
    | .OR => .some .Or
    | .XOR => .some .Xor
    | .SLT => .some .SignedLessThan
    | .SLTU => .some .UnsignedLessThan
    | .MULHU => .some .UpperWord
    | .VirtualChangeDivisor => .some .VirtualChangeDivisor
    | .VirtualChangeDivisorW => .some .VirtualChangeDivisorW
    | .VirtualXORROT32 => .some (.VirtualXORROT 32)
    | .VirtualXORROT24 => .some (.VirtualXORROT 24)
    | .VirtualXORROT16 => .some (.VirtualXORROT 16)
    | .VirtualXORROT63 => .some (.VirtualXORROT 63)
    | .VirtualXORROTW16 => .some (.VirtualXORROTW 16)
    | .VirtualXORROTW12 => .some (.VirtualXORROTW 12)
    | .VirtualXORROTW8 => .some (.VirtualXORROTW 8)
    | .VirtualXORROTW7 => .some (.VirtualXORROTW 7)
  | .i op _ => match op with
    | .ADDI | .VirtualMULI => .some .RangeCheck
    | .ANDI => .some .And
    | .ORI => .some .Or
    | .XORI => .some .Xor
    | .SLTI => .some .SignedLessThan
    | .SLTIU => .some .UnsignedLessThan
    | .VirtualMovsign => .some .Movsign
    | .VirtualPow2 => .some .Pow2
    | .VirtualPow2W => .some .Pow2W
    | .VirtualShiftRightBitmask => .some .ShiftRightBitmask
    | .VirtualSignExtendWord => .some .SignExtendHalfWord
    | .VirtualZeroExtendWord => .some .LowerHalfWord
    | .VirtualRev8W => .some .VirtualRev8W
  | .u .. | .JAL _ | .VirtualAdvice .. | .VirtualAdviceLoad _ | .VirtualAdviceLen _ =>
    .some .RangeCheck
  | .JALR _ => .some .RangeCheckAligned
  | .j op _ => match op with
    | .VirtualPow2I => .some .Pow2
    | .VirtualPow2IW => .some .Pow2W
    | .VirtualShiftRightBitmaskI => .some .ShiftRightBitmask
  | .shiftI op _ => match op with
    | .VirtualSRLI => .some .VirtualSRL
    | .VirtualSRAI => .some .VirtualSRA
    | .VirtualROTRI => .some .VirtualROTR
    | .VirtualROTRIW => .some .VirtualROTRW
  | .shiftR op _ => match op with
    | .VirtualSRL => .some .VirtualSRL
    | .VirtualSRA => .some .VirtualSRA
  | .branch op _ => match op with
    | .BEQ => .some .Equal
    | .BNE => .some .NotEqual
    | .BLT => .some .SignedLessThan
    | .BGE => .some .SignedGreaterThanEqual
    | .BLTU => .some .UnsignedLessThan
    | .BGEU => .some .UnsignedGreaterThanEqual
  | .assert op _ => match op with
    | .VirtualAssertEQ => .some .Equal
    | .VirtualAssertLTE => .some .LessThanEqual
    | .VirtualAssertValidDiv0 => .some .ValidDiv0
    | .VirtualAssertValidUnsignedRemainder => .some .ValidUnsignedRemainder
    | .VirtualAssertMulUNoOverflow => .some .MulUNoOverflow
  | .align op _ => match op with
    | .VirtualAssertHalfwordAlignment => .some .HalfwordAlignment
    | .VirtualAssertWordAlignment => .some .WordAlignment
  | .noOp | .LD _ | .SD _ | .VirtualLW _ | .VirtualSW _ | .VirtualHostIo _ | .FENCE | .EBREAK _ => .none

end LightningJolt
