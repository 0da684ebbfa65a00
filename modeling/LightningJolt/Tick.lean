/-
The step of the emulator (`tracer/src/emulator/cpu.rs`) in 64-bit mode: fetch,
the expansion of compressed instructions (`uncompress_instruction` in
`tracer/src/instruction/mod.rs`), decode, execution, interrupts and the clock.

A fetch does not trap, since no address translation is on, so the exception
path of `tick` is not taken. The counters of the log (`trace_len`,
`executed_instrs`) are left out.
-/
import LightningJolt.Decode

namespace LightningJolt

/-! ## Compressed instructions -/

/-- The immediates of the compressed formats, from the bits of the halfword. -/
structure CompressedImmediates where
  /-- `C.LW`, `C.SW`. -/
  word : U32
  /-- `C.LD`, `C.SD` and their floating-point forms. -/
  doubleword : U32
  /-- `C.ADDI` and the other six-bit immediates, sign-extended. -/
  short : U32
  /-- The shift amounts. -/
  shamt : U32
  /-- `C.J`, as the immediate field of `JAL`. -/
  jump : U32
  /-- `C.BEQZ` and `C.BNEZ`, as the two immediate fields of a branch. -/
  branchHigh : U32
  branchLow : U32

/-- `match halfword & 0x1000`: the bits above an immediate's sign. -/
def compressedSign (h bits : U32) : U32 := if h &&& 0x1000 = 0x1000 then bits else 0

def compressedImmediates (h : U32) : CompressedImmediates :=
  let jumpOffset := compressedSign h 0xfffff000 ||| ((h >>> 1) &&& 0x800) ||| ((h >>> 7) &&& 0x10) |||
    ((h >>> 1) &&& 0x300) ||| ((h <<< 2) &&& 0x400) ||| ((h >>> 1) &&& 0x40) ||| ((h <<< 1) &&& 0x80) |||
    ((h >>> 2) &&& 0xe) ||| ((h <<< 3) &&& 0x20)
  let branchOffset := compressedSign h 0xfffffe00 ||| ((h >>> 4) &&& 0x100) ||| ((h >>> 7) &&& 0x18) |||
    ((h <<< 1) &&& 0xc0) ||| ((h >>> 2) &&& 0x6) ||| ((h <<< 3) &&& 0x20)
  { word := ((h >>> 7) &&& 0x38) ||| ((h >>> 4) &&& 0x4) ||| ((h <<< 1) &&& 0x40)
    doubleword := ((h >>> 7) &&& 0x38) ||| ((h <<< 1) &&& 0xc0)
    short := compressedSign h 0xffffffc0 ||| ((h >>> 7) &&& 0x20) ||| ((h >>> 2) &&& 0x1f)
    shamt := ((h >>> 7) &&& 0x20) ||| ((h >>> 2) &&& 0x1f)
    jump := ((jumpOffset >>> 1) &&& 0x80000) ||| ((jumpOffset <<< 8) &&& 0x7fe00) |||
      ((jumpOffset >>> 3) &&& 0x100) ||| ((jumpOffset >>> 12) &&& 0xff)
    branchHigh := ((branchOffset >>> 6) &&& 0x40) ||| ((branchOffset >>> 5) &&& 0x3f)
    branchLow := (branchOffset &&& 0x1e) ||| ((branchOffset >>> 11) &&& 0x1) }

/-- The word of an instruction with `funct3`, two registers and an opcode, and what is above them. -/
def encodeI (imm rs1 funct3 rd opcode : U32) : U32 :=
  (imm <<< 20) ||| (rs1 <<< 15) ||| (funct3 <<< 12) ||| (rd <<< 7) ||| opcode

/-- The word of a store to `offset`, the upper part of it in `mask`. -/
def encodeS (offset mask rs2 rs1 funct3 opcode : U32) : U32 :=
  (((offset >>> 5) &&& mask) <<< 25) ||| (rs2 <<< 20) ||| (rs1 <<< 15) ||| (funct3 <<< 12) |||
    ((offset &&& 0x1f) <<< 7) ||| opcode

/-- The halfwords ending in `00`. -/
def uncompressQuadrant0 (h : U32) : Option U32 :=
  let imm := compressedImmediates h
  let low := ((h >>> 2) &&& 0x7) + 8
  let rs1 := ((h >>> 7) &&& 0x7) + 8
  match ((h >>> 13) &&& 0x7).toNat with
  | 0 =>
    -- C.ADDI4SPN
    let nzuimm := ((h >>> 7) &&& 0x30) ||| ((h >>> 1) &&& 0x3c0) ||| ((h >>> 4) &&& 0x4) |||
      ((h >>> 2) &&& 0x8)
    if nzuimm ≠ 0 then .some (encodeI nzuimm 2 0 low 0x13) else .none
  | 1 => .some (encodeI imm.doubleword rs1 3 low 0x7)
  | 2 => .some (encodeI imm.word rs1 2 low 0x3)
  | 3 => .some (encodeI imm.doubleword rs1 3 low 0x3)
  | 5 => .some (encodeS imm.doubleword 0x7f low rs1 3 0x27)
  | 6 => .some (encodeS imm.word 0x7f low rs1 2 0x23)
  | 7 => .some (encodeS imm.doubleword 0x7f low rs1 3 0x23)
  | _ => .none

/-- `C.SRLI` to `C.ADDW`. -/
def uncompressArith (h : U32) : Option U32 :=
  let imm := compressedImmediates h
  let r := ((h >>> 7) &&& 0x7) + 8
  let rs2 := ((h >>> 2) &&& 0x7) + 8
  match ((h >>> 10) &&& 0x3).toNat with
  | 0 => .some (encodeI imm.shamt r 5 r 0x13)
  | 1 => .some ((0x20 <<< 25) ||| encodeI imm.shamt r 5 r 0x13)
  | 2 => .some (encodeI imm.short r 7 r 0x13)
  | _ =>
    match ((h >>> 12) &&& 1).toNat, ((h >>> 5) &&& 0x3).toNat with
    | 0, 0 => .some ((0x20 <<< 25) ||| encodeI rs2 r 0 r 0x33)
    | 0, 1 => .some (encodeI rs2 r 4 r 0x33)
    | 0, 2 => .some (encodeI rs2 r 6 r 0x33)
    | 0, 3 => .some (encodeI rs2 r 7 r 0x33)
    | 1, 0 => .some ((0x20 <<< 25) ||| encodeI rs2 r 0 r 0x3b)
    | 1, 1 => .some (encodeI rs2 r 0 r 0x3b)
    | _, _ => .none

/-- The halfwords ending in `01`. -/
def uncompressQuadrant1 (h : U32) : Option U32 :=
  let imm := compressedImmediates h
  let r := (h >>> 7) &&& 0x1f
  match ((h >>> 13) &&& 0x7).toNat with
  -- A hint is a no-op.
  | 0 => if r = 0 ∨ imm.short = 0 then .some 0x13 else .some (encodeI imm.short r 0 r 0x13)
  | 1 => if r = 0 then .none else .some (encodeI imm.short r 0 r 0x1b)
  | 2 => if r ≠ 0 then .some (encodeI imm.short 0 0 r 0x13) else .some 0x13
  | 3 =>
    if r = 2 then
      -- C.ADDI16SP
      let nzimm := compressedSign h 0xfffffc00 ||| ((h >>> 3) &&& 0x200) ||| ((h >>> 2) &&& 0x10) |||
        ((h <<< 1) &&& 0x40) ||| ((h <<< 4) &&& 0x180) ||| ((h <<< 3) &&& 0x20)
      if nzimm ≠ 0 then .some (encodeI nzimm r 0 r 0x13) else .none
    else if r ≠ 0 then
      -- C.LUI
      let nzimm := compressedSign h 0xfffc0000 ||| ((h <<< 5) &&& 0x20000) ||| ((h <<< 10) &&& 0x1f000)
      if nzimm ≠ 0 then .some (nzimm ||| (r <<< 7) ||| 0x37) else .none
    else .some 0x13
  | 4 => uncompressArith h
  | 5 => .some ((imm.jump <<< 12) ||| 0x6f)
  | 6 => .some ((imm.branchHigh <<< 25) ||| ((((h >>> 7) &&& 0x7) + 8) <<< 20) ||| (imm.branchLow <<< 7) ||| 0x63)
  | _ => .some ((imm.branchHigh <<< 25) ||| ((((h >>> 7) &&& 0x7) + 8) <<< 20) ||| (1 <<< 12) |||
      (imm.branchLow <<< 7) ||| 0x63)

/-- The halfwords ending in `10`. -/
def uncompressQuadrant2 (h : U32) : Option U32 :=
  let imm := compressedImmediates h
  let r := (h >>> 7) &&& 0x1f
  let rs2 := (h >>> 2) &&& 0x1f
  let loadDoubleword := ((h >>> 7) &&& 0x20) ||| ((h >>> 2) &&& 0x18) ||| ((h <<< 4) &&& 0x1c0)
  let storeDoubleword := ((h >>> 7) &&& 0x38) ||| ((h >>> 1) &&& 0x1c0)
  match ((h >>> 13) &&& 0x7).toNat with
  | 0 => if r ≠ 0 then .some (encodeI imm.shamt r 1 r 0x13) else .none
  | 1 => if r ≠ 0 then .some (encodeI loadDoubleword 2 3 r 0x7) else .none
  | 2 =>
    let offset := ((h >>> 7) &&& 0x20) ||| ((h >>> 2) &&& 0x1c) ||| ((h <<< 4) &&& 0xc0)
    if r ≠ 0 then .some (encodeI offset 2 2 r 0x3) else .none
  | 3 => if r ≠ 0 then .some (encodeI loadDoubleword 2 3 r 0x3) else .none
  | 4 =>
    if (h >>> 12) &&& 1 = 0 then
      -- C.JR and C.MV
      if r = 0 ∧ rs2 = 0 then .none
      else if rs2 = 0 then .some ((r <<< 15) ||| 0x67)
      else if r = 0 then .some 0x13
      else .some ((rs2 <<< 20) ||| (r <<< 7) ||| 0x33)
    else
      -- C.EBREAK, C.JALR and C.ADD
      if r = 0 ∧ rs2 = 0 then .some 0x00100073
      else if rs2 = 0 then .some ((r <<< 15) ||| (1 <<< 7) ||| 0x67)
      else if r = 0 then .some 0x13
      else .some ((rs2 <<< 20) ||| (r <<< 15) ||| (r <<< 7) ||| 0x33)
  | 5 => .some (encodeS storeDoubleword 0x3f rs2 2 3 0x27)
  | 6 => .some (encodeS (((h >>> 7) &&& 0x3c) ||| ((h >>> 1) &&& 0xc0)) 0x3f rs2 2 2 0x23)
  | _ => .some (encodeS storeDoubleword 0x3f rs2 2 3 0x23)

/-- `uncompress_instruction`; the reserved halfwords give a word that does not decode. -/
def uncompressInstruction (h : U32) : U32 :=
  let word := match (h &&& 0x3).toNat with
    | 0 => uncompressQuadrant0 h
    | 1 => uncompressQuadrant1 h
    | 2 => uncompressQuadrant2 h
    | _ => .none
  word.getD 0xffffffff

namespace Cpu

/-! ## The tick -/

variable (inlines : Inlines) (traced : Bool)

/-- The instruction at the program counter, which moves past it. -/
def fetchDecode : CpuM Instruction := do
  let pc := (← get).pc
  let originalWord ← onMmu (Mmu.fetchWord pc.toNat)
  let isCompressed := originalWord &&& 0x3 ≠ 0x3
  modify fun cpu => { cpu with pc := cpu.pc + if isCompressed then 2 else 4 }
  let word := if isCompressed then uncompressInstruction (originalWord &&& 0xffff) else originalWord
  StateT.lift (Instruction.decode word pc isCompressed)

/-- A processor that waits for an interrupt wakes if one is pending. -/
def wake : CpuM Unit := do
  let mie ← StateT.lift ((← get).readCsrRaw csrMieAddress)
  let mip ← StateT.lift ((← get).readCsrRaw csrMipAddress)
  if mie &&& mip ≠ 0 then modify fun cpu => { cpu with wfi := false }

/-- `tick_operate`, with its trace or without. -/
def tickOperate : CpuM (List Cycle) := do
  let cpu ← get
  if cpu.wfi then
    wake
    pure []
  else
    let i ← fetchDecode
    if traced then i.trace inlines
    else
      let _ ← i.execute
      pure []

/-- The clock moves on and shows in its register. -/
def advanceClock : CpuM Unit := do
  modify fun cpu => { cpu with clock := cpu.clock + 1 }
  let cpu ← get
  let cpu ← StateT.lift (cpu.writeCsrRaw csrCycleAddress (cpu.clock * 8))
  set cpu

/-- `tick`. -/
def tick : CpuM (List Cycle) := do
  let cycles ← tickOperate inlines traced
  let cpu ← get
  handleInterrupt cpu.pc
  advanceClock
  pure cycles

end Cpu

end LightningJolt
