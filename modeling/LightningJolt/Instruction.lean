/-
The instructions that trace as one cycle (`tracer/src/instruction`): their
operand formats and what each of them executes.

An `enum Instruction` variant of the source is an operation with its
operands, here `BasicOp`, and the fields every instruction struct has beside
them, `BasicInstruction`. Operations of one format that differ in the value
they compute only are one constructor over an enumeration of their names.
Arithmetic that overflows wraps, as in the release build; a failed assertion,
like every other panic, is `none`.
-/
import LightningJolt.Cpu

namespace LightningJolt

/-! ## Formats (`tracer/src/instruction/format`) -/

/-- `FormatR`, and `FormatAMO`, which has the same fields. -/
structure FormatR where
  rd : Nat
  rs1 : Nat
  rs2 : Nat
deriving DecidableEq

structure FormatI where
  rd : Nat
  rs1 : Nat
  imm : U64
deriving DecidableEq

/-- Like `FormatI`, but the immediate is an `i64`. -/
structure FormatLoad where
  rd : Nat
  rs1 : Nat
  imm : U64
deriving DecidableEq

/-- The immediate is an `i64`. -/
structure FormatS where
  rs1 : Nat
  rs2 : Nat
  imm : U64
deriving DecidableEq

/-- The immediate is an `i128`. -/
structure FormatB where
  rs1 : Nat
  rs2 : Nat
  imm : Int
deriving DecidableEq

structure FormatJ where
  rd : Nat
  imm : U64
deriving DecidableEq

structure FormatU where
  rd : Nat
  imm : U64
deriving DecidableEq

/-- The immediate is an `i64`. -/
structure FormatAssert where
  rs1 : Nat
  imm : U64
deriving DecidableEq

structure FormatVirtualRightShiftI where
  rd : Nat
  rs1 : Nat
  imm : U64
deriving DecidableEq

structure FormatVirtualRightShiftR where
  rd : Nat
  rs1 : Nat
  rs2 : Nat
deriving DecidableEq

/-- The operands common to all formats; `imm` is an `i128`. -/
structure NormalizedOperands where
  rs1 : Option Nat
  rs2 : Option Nat
  rd : Option Nat
  imm : Int
deriving DecidableEq

/-! ## Operations -/

inductive ROp
  | ADD | SUB | AND | ANDN | OR | XOR | SLT | SLTU | MUL | MULHU
  | VirtualChangeDivisor | VirtualChangeDivisorW
  | VirtualXORROT32 | VirtualXORROT24 | VirtualXORROT16 | VirtualXORROT63
  | VirtualXORROTW16 | VirtualXORROTW12 | VirtualXORROTW8 | VirtualXORROTW7
deriving DecidableEq

inductive IOp
  | ADDI | ANDI | ORI | XORI | SLTI | SLTIU | VirtualMULI
  | VirtualMovsign | VirtualPow2 | VirtualPow2W | VirtualShiftRightBitmask
  | VirtualSignExtendWord | VirtualZeroExtendWord | VirtualRev8W
deriving DecidableEq

inductive UOp
  | LUI | AUIPC
deriving DecidableEq

inductive JOp
  | VirtualPow2I | VirtualPow2IW | VirtualShiftRightBitmaskI
deriving DecidableEq

inductive ShiftIOp
  | VirtualSRLI | VirtualSRAI | VirtualROTRI | VirtualROTRIW
deriving DecidableEq

inductive ShiftROp
  | VirtualSRL | VirtualSRA
deriving DecidableEq

inductive BranchOp
  | BEQ | BNE | BLT | BGE | BLTU | BGEU
deriving DecidableEq

inductive AssertOp
  | VirtualAssertEQ | VirtualAssertLTE | VirtualAssertValidDiv0
  | VirtualAssertValidUnsignedRemainder | VirtualAssertMulUNoOverflow
deriving DecidableEq

inductive AlignOp
  | VirtualAssertHalfwordAlignment | VirtualAssertWordAlignment
deriving DecidableEq

inductive BasicOp
  | noOp
  | r (op : ROp) (o : FormatR)
  | i (op : IOp) (o : FormatI)
  | u (op : UOp) (o : FormatU)
  | j (op : JOp) (o : FormatJ)
  | shiftI (op : ShiftIOp) (o : FormatVirtualRightShiftI)
  | shiftR (op : ShiftROp) (o : FormatVirtualRightShiftR)
  | branch (op : BranchOp) (o : FormatB)
  | assert (op : AssertOp) (o : FormatB)
  | align (op : AlignOp) (o : FormatAssert)
  | JAL (o : FormatJ)
  | JALR (o : FormatI)
  | LD (o : FormatLoad)
  | SD (o : FormatS)
  | VirtualLW (o : FormatI)
  | VirtualSW (o : FormatS)
  | VirtualAdvice (o : FormatJ) (advice : U64)
  | VirtualAdviceLoad (o : FormatJ)
  | VirtualAdviceLen (o : FormatI)
  | VirtualHostIo (o : FormatI)
  | FENCE
  | EBREAK (o : FormatI)
deriving DecidableEq

/-- An instruction struct of the source: its operation and operands, and the
fields `declare_riscv_instr!` adds to each of them. -/
structure BasicInstruction where
  op : BasicOp
  address : U64
  virtualSequenceRemaining : Option Nat
  isFirstInSequence : Bool
  isCompressed : Bool
deriving DecidableEq

/-! ## Values -/

/-- `trailing_zeros`. -/
def trailingZeros {w : Nat} (x : BitVec w) : Nat := ((List.range w).find? fun i => x.getLsbD i).getD w

/-- `i64::wrapping_shr`. -/
def wrappingSar (x : U64) (shift : Nat) : U64 := x.sshiftRight (shift % 64)

/-- `u64::wrapping_shr`. -/
def wrappingShr (x : U64) (shift : Nat) : U64 := x >>> (shift % 64)

/-- `u32::swap_bytes`. -/
def swapBytes (v : U32) : U32 :=
  (v <<< 24) ||| ((v &&& 0xff00) <<< 8) ||| ((v >>> 8) &&& 0xff00) ||| (v >>> 24)

/-- `rev8w`: the bytes of each half reversed. -/
def rev8w (v : U64) : U64 :=
  (swapBytes (v.setWidth 32)).setWidth 64 + ((swapBytes ((v >>> 32).setWidth 32)).setWidth 64 <<< 32)

/-- `VirtualXORROT*`. -/
def xorRot (n : Nat) (a b : U64) : U64 := (a ^^^ b).rotateRight n

/-- `VirtualXORROTW*`, zero-extended. -/
def xorRotW (n : Nat) (a b : U64) : U64 :=
  ((a.setWidth 32 ^^^ b.setWidth 32).rotateRight n).setWidth 64

/-- The mask with the bits from `shift` up set. -/
def shiftRightBitmask (shift : Nat) : U64 :=
  ((((1 : U128) <<< (64 - shift)) - 1) <<< shift).setWidth 64

/-- What an R-type operation writes to `rd`. -/
def ROp.eval (op : ROp) (a b : U64) : U64 :=
  match op with
  | .ADD => a + b
  | .SUB => a - b
  | .AND => a &&& b
  | .ANDN => a &&& ~~~b
  | .OR => a ||| b
  | .XOR => a ^^^ b
  | .SLT => if a.slt b then 1 else 0
  | .SLTU => if a < b then 1 else 0
  | .MUL => a * b
  | .MULHU => ((a.setWidth 128 * b.setWidth 128) >>> 64).setWidth 64
  | .VirtualChangeDivisor => if a = BitVec.intMin 64 ∧ b = -1 then 1 else b
  | .VirtualChangeDivisorW =>
    if a.setWidth 32 = BitVec.intMin 32 ∧ b.setWidth 32 = -1 then 1
    else (b.setWidth 32).signExtend 64
  | .VirtualXORROT32 => xorRot 32 a b
  | .VirtualXORROT24 => xorRot 24 a b
  | .VirtualXORROT16 => xorRot 16 a b
  | .VirtualXORROT63 => xorRot 63 a b
  | .VirtualXORROTW16 => xorRotW 16 a b
  | .VirtualXORROTW12 => xorRotW 12 a b
  | .VirtualXORROTW8 => xorRotW 8 a b
  | .VirtualXORROTW7 => xorRotW 7 a b

/-- What an I-type operation writes to `rd`. -/
def IOp.eval (op : IOp) (a imm : U64) : U64 :=
  match op with
  | .ADDI => a + imm
  | .ANDI => a &&& imm
  | .ORI => a ||| imm
  | .XORI => a ^^^ imm
  | .SLTI => if a.slt imm then 1 else 0
  | .SLTIU => if a < imm then 1 else 0
  | .VirtualMULI => a * imm
  | .VirtualMovsign => if a &&& 0x8000000000000000 ≠ 0 then 0xffffffffffffffff else 0
  | .VirtualPow2 => (1 : U64) <<< (a.toNat % 64)
  | .VirtualPow2W => (1 : U64) <<< (a.toNat % 32)
  | .VirtualShiftRightBitmask => shiftRightBitmask (a &&& 0x3f).toNat
  | .VirtualSignExtendWord => (a <<< 32).sshiftRight 32
  | .VirtualZeroExtendWord => a &&& 0xffffffff
  | .VirtualRev8W => rev8w a

/-- What a U-type operation at `address` writes to `rd`. -/
def UOp.eval (op : UOp) (address imm : U64) : U64 :=
  match op with
  | .LUI => imm
  | .AUIPC => address + imm

/-- What an operation of an immediate alone writes to `rd`. -/
def JOp.eval (op : JOp) (imm : U64) : U64 :=
  match op with
  | .VirtualPow2I => (1 : U64) <<< (imm.toNat % 64)
  | .VirtualPow2IW => (1 : U64) <<< (imm.toNat % 32)
  | .VirtualShiftRightBitmaskI => shiftRightBitmask (imm.toNat % 64)

/-- What a right shift by the trailing zeros of a mask writes to `rd`. -/
def ShiftIOp.eval (op : ShiftIOp) (a imm : U64) : U64 :=
  match op with
  | .VirtualSRLI => wrappingShr a (trailingZeros imm)
  | .VirtualSRAI => wrappingSar a (trailingZeros imm)
  | .VirtualROTRI => a.rotateRight (trailingZeros imm)
  | .VirtualROTRIW => ((a.setWidth 32).rotateRight (min (trailingZeros imm) 32)).setWidth 64

def ShiftROp.eval (op : ShiftROp) (a b : U64) : U64 :=
  match op with
  | .VirtualSRL => wrappingShr a (trailingZeros b)
  | .VirtualSRA => wrappingSar a (trailingZeros b)

/-- Whether the branch is taken. -/
def BranchOp.holds (op : BranchOp) (a b : U64) : Bool :=
  match op with
  | .BEQ => a == b
  | .BNE => a != b
  | .BLT => a.slt b
  | .BGE => b.sle a
  | .BLTU => decide (a < b)
  | .BGEU => decide (b ≤ a)

/-- Whether the assertion passes. `VirtualAssertEQ` with an immediate is the
"spoil" form, which only warns. -/
def AssertOp.holds (op : AssertOp) (a b : U64) (imm : Int) : Bool :=
  match op with
  | .VirtualAssertEQ => imm != 0 || a == b
  | .VirtualAssertLTE => decide (a ≤ b)
  | .VirtualAssertValidDiv0 => a != 0 || b == 0xffffffffffffffff
  | .VirtualAssertValidUnsignedRemainder => b == 0 || decide (a < b)
  | .VirtualAssertMulUNoOverflow => decide (a.toNat * b.toNat < 2 ^ 64)

def AlignOp.holds (op : AlignOp) (address : U64) : Bool :=
  match op with
  | .VirtualAssertHalfwordAlignment => address &&& 1 == 0
  | .VirtualAssertWordAlignment => address &&& 3 == 0

/-! ## Execution -/

/-- The end of every `exec` that computes a value. -/
def writeRd (rd : Nat) (value : U64) : CpuM RamAccess := fun cpu =>
  .some (.noOp, cpu.writeRegister rd value)

/-- `Cpu::handle_advice_write`: the bytes of the guest's memory go on the tape. -/
def handleAdviceWrite (ptr len : U64) : CpuM Unit := do
  let bytes ← Cpu.onMmu ((List.range len.toNat).mapM fun i => do
    let (b, _) ← Mmu.load ((ptr.toNat + i) % 2 ^ 64)
    pure b)
  modify fun cpu => { cpu with adviceTape := cpu.adviceTape.write bytes }

/-- `Cpu::read_string`. -/
def readString (addr len : U32) : CpuM (List U8) :=
  Cpu.onMmu ((List.range len.toNat).mapM fun i => do
    let (b, _) ← Mmu.load ((addr.toNat + i) % 2 ^ 32)
    pure b)

/-- `Cpu::handle_jolt_cycle_marker`, whose markers only feed the log. -/
def handleJoltCycleMarker (ptr len event : U32) : CpuM Unit := do
  if event = 1 then
    let _ ← readString ptr len
  else if event = 2 then pure ()
  else failure

/-- `Cpu::handle_jolt_print`, short of the printing. -/
def handleJoltPrint (ptr len event : U32) : CpuM Unit := do
  let _ ← readString ptr len
  guard (event = 1 ∨ event = 2)

/-- `VirtualHostIO::exec`: the call is in registers 10 to 13. -/
def hostIo : CpuM Unit := do
  let cpu ← get
  let callId := (cpu.x.read 10).setWidth 32
  if callId = (0xADBABE : U32) then
    handleAdviceWrite (cpu.x.read 11) (cpu.x.read 12)
  else
    let ptr := (cpu.x.read 11).setWidth 32
    let len := (cpu.x.read 12).setWidth 32
    let event := (cpu.x.read 13).setWidth 32
    if callId = (0xC7C1E : U32) then handleJoltCycleMarker ptr len event
    else if callId = (0x505249 : U32) then handleJoltPrint ptr len event
    else pure ()

namespace BasicOp

/-- The `exec` of each operation, with the access it recorded. The program
counter already points past the instruction, which sits at `address`. -/
def exec (address : U64) : BasicOp → CpuM RamAccess
  | .noOp => failure
  | .r op o => fun cpu => writeRd o.rd (op.eval (cpu.x.read o.rs1) (cpu.x.read o.rs2)) cpu
  | .i op o => fun cpu => writeRd o.rd (op.eval (cpu.x.read o.rs1) o.imm) cpu
  | .u op o => writeRd o.rd (op.eval address o.imm)
  | .j op o => writeRd o.rd (op.eval o.imm)
  | .shiftI op o => fun cpu => writeRd o.rd (op.eval (cpu.x.read o.rs1) o.imm) cpu
  | .shiftR op o => fun cpu => writeRd o.rd (op.eval (cpu.x.read o.rs1) (cpu.x.read o.rs2)) cpu
  | .branch op o => fun cpu =>
    if op.holds (cpu.x.read o.rs1) (cpu.x.read o.rs2) then
      .some (.noOp, { cpu with pc := address + BitVec.ofInt 64 o.imm })
    else .some (.noOp, cpu)
  | .assert op o => fun cpu =>
    if op.holds (cpu.x.read o.rs1) (cpu.x.read o.rs2) o.imm then .some (.noOp, cpu) else .none
  | .align op o => fun cpu =>
    if op.holds (cpu.x.read o.rs1 + o.imm) then .some (.noOp, cpu) else .none
  | .JAL o => fun cpu =>
    .some (.noOp, { cpu.writeRegister o.rd cpu.pc with pc := address + o.imm })
  | .JALR o => fun cpu =>
    .some (.noOp, { cpu.writeRegister o.rd cpu.pc with pc := (cpu.x.read o.rs1 + o.imm) &&& ~~~1 })
  | .LD o => do
    let cpu ← get
    let address := cpu.x.read o.rs1 + (o.imm.setWidth 32).signExtend 64
    let (value, memoryRead) ← Cpu.onMmu (Mmu.loadDoubleword address.toNat)
    modify fun cpu => cpu.writeRegister o.rd value
    pure (.read memoryRead)
  | .SD o => do
    let cpu ← get
    let address := cpu.x.read o.rs1 + o.imm
    let memoryWrite ← Cpu.onMmu (Mmu.storeDoubleword address.toNat (cpu.x.read o.rs2))
    pure (.write memoryWrite)
  -- Both assert a 32-bit processor.
  | .VirtualLW _ => failure
  | .VirtualSW _ => failure
  | .VirtualAdvice o advice => writeRd o.rd advice
  | .VirtualAdviceLoad o => fun cpu => do
    let (value, adviceTape) ← cpu.adviceTape.read o.imm.toNat
    writeRd o.rd value { cpu with adviceTape := adviceTape }
  | .VirtualAdviceLen o => fun cpu => writeRd o.rd (BitVec.ofNat 64 cpu.adviceTape.remaining) cpu
  | .VirtualHostIo _ => do
    hostIo
    pure .noOp
  | .FENCE => pure .noOp
  | .EBREAK _ => fun cpu => .some (.noOp, { cpu with pc := address })

/-- The conversions of the formats into `NormalizedOperands`. -/
def normalize : BasicOp → NormalizedOperands
  | .noOp | .FENCE => ⟨.none, .none, .none, 0⟩
  | .r _ o => ⟨.some o.rs1, .some o.rs2, .some o.rd, 0⟩
  | .i _ o | .JALR o | .VirtualLW o | .VirtualAdviceLen o | .VirtualHostIo o | .EBREAK o =>
    ⟨.some o.rs1, .none, .some o.rd, o.imm.toNat⟩
  | .u _ o => ⟨.none, .none, .some o.rd, o.imm.toNat⟩
  | .j _ o | .JAL o | .VirtualAdvice o _ | .VirtualAdviceLoad o =>
    ⟨.none, .none, .some o.rd, o.imm.toNat⟩
  | .shiftI _ o => ⟨.some o.rs1, .none, .some o.rd, o.imm.toNat⟩
  | .shiftR _ o => ⟨.some o.rs1, .some o.rs2, .some o.rd, 0⟩
  | .branch _ o | .assert _ o => ⟨.some o.rs1, .some o.rs2, .none, o.imm⟩
  | .align _ o => ⟨.some o.rs1, .none, .none, o.imm.toInt⟩
  | .LD o => ⟨.some o.rs1, .none, .some o.rd, o.imm.toInt⟩
  | .SD o | .VirtualSW o => ⟨.some o.rs1, .some o.rs2, .none, o.imm.toInt⟩

/-- The register the operation writes, of the formats that have one. -/
abbrev rd (op : BasicOp) : Option Nat := op.normalize.rd

/-- The operation with `rd` overwritten: `InstructionFormat::set_rd`. -/
def withRd (rd : Nat) : BasicOp → BasicOp
  | .r op o => .r op { o with rd }
  | .i op o => .i op { o with rd }
  | .u op o => .u op { o with rd }
  | .j op o => .j op { o with rd }
  | .shiftI op o => .shiftI op { o with rd }
  | .shiftR op o => .shiftR op { o with rd }
  | .JAL o => .JAL { o with rd }
  | .JALR o => .JALR { o with rd }
  | .LD o => .LD { o with rd }
  | .VirtualLW o => .VirtualLW { o with rd }
  | .VirtualAdvice o a => .VirtualAdvice { o with rd } a
  | .VirtualAdviceLoad o => .VirtualAdviceLoad { o with rd }
  | .VirtualAdviceLen o => .VirtualAdviceLen { o with rd }
  | .VirtualHostIo o => .VirtualHostIo { o with rd }
  | .EBREAK o => .EBREAK { o with rd }
  | op => op

/-- The operations declared with `side_effects = true`. -/
def hasSideEffects : BasicOp → Bool
  | .branch .. | .JAL _ | .JALR _ | .SD _ | .VirtualSW _ | .VirtualAdviceLoad _ | .VirtualHostIo _
  | .EBREAK _ => true
  | _ => false

end BasicOp

end LightningJolt
