/-
The instructions that trace as an inline sequence of others
(`tracer/src/instruction`), in 64-bit mode: each instruction's
`inline_sequence`, with the sequences its own instructions expand to already
in place.

`VirtualRegisterAllocator::allocate` hands out the lowest register that is
free, from 40 up, so what a sequence allocates is given by `next`, the lowest
one free when it starts.
-/
import LightningJolt.Instruction

namespace LightningJolt

/-! ## Registers with a meaning (`tracer/src/utils/virtual_registers.rs`) -/

def reservationWRegister : Nat := 32
def reservationDRegister : Nat := 33
def trapHandlerRegister : Nat := 34
def mscratchRegister : Nat := 35
def mepcRegister : Nat := 36
def mcauseRegister : Nat := 37
def mtvalRegister : Nat := 38
def mstatusRegister : Nat := 39

/-- The first register `allocate` hands out. -/
def firstVirtualRegister : Nat := 40

/-- `csr_to_virtual_register`. -/
def csrToVirtualRegister (csr : Nat) : Option Nat :=
  match csr with
  | 0x300 => .some mstatusRegister
  | 0x305 => .some trapHandlerRegister
  | 0x340 => .some mscratchRegister
  | 0x341 => .some mepcRegister
  | 0x342 => .some mcauseRegister
  | 0x343 => .some mtvalRegister
  | _ => .none

/-! ## Multiplication and shifts -/

def MULH.inlineSequence (o : FormatR) (next : Nat) : List BasicOp :=
  let sx := next
  let sy := next + 1
  let tmp := next + 2
  [.i .VirtualMovsign ⟨sx, o.rs1, 0⟩,
   .i .VirtualMovsign ⟨sy, o.rs2, 0⟩,
   .r .MUL ⟨sx, sx, o.rs2⟩,
   .r .MUL ⟨sy, sy, o.rs1⟩,
   .r .MULHU ⟨tmp, o.rs1, o.rs2⟩,
   .r .ADD ⟨tmp, tmp, sx⟩,
   .r .ADD ⟨o.rd, tmp, sy⟩]

def MULHSU.inlineSequence (o : FormatR) (next : Nat) : List BasicOp :=
  let v0 := next
  let v1 := next + 1
  let v2 := next + 2
  let v3 := next + 3
  [.i .VirtualMovsign ⟨v0, o.rs1, 0⟩,
   .i .ANDI ⟨v1, v0, 1⟩,
   .r .XOR ⟨v2, o.rs1, v0⟩,
   .r .ADD ⟨v2, v2, v1⟩,
   .r .MULHU ⟨v3, v2, o.rs2⟩,
   .r .MUL ⟨v2, v2, o.rs2⟩,
   .r .XOR ⟨v3, v3, v0⟩,
   .r .XOR ⟨v2, v2, v0⟩,
   .r .ADD ⟨v0, v2, v1⟩,
   .r .SLTU ⟨v0, v0, v2⟩,
   .r .ADD ⟨o.rd, v3, v0⟩]

/-- A doubleword operation whose result is then sign-extended from its word. -/
def wordSequence (op : ROp) (o : FormatR) : List BasicOp :=
  [.r op o, .i .VirtualSignExtendWord ⟨o.rd, o.rd, 0⟩]

def MULW.inlineSequence : FormatR → List BasicOp := wordSequence .MUL
def ADDW.inlineSequence : FormatR → List BasicOp := wordSequence .ADD
def SUBW.inlineSequence : FormatR → List BasicOp := wordSequence .SUB

def ADDIW.inlineSequence (o : FormatI) : List BasicOp :=
  [.i .ADDI o, .i .VirtualSignExtendWord ⟨o.rd, o.rd, 0⟩]

def SLL.inlineSequence (o : FormatR) (next : Nat) : List BasicOp :=
  let pow2 := next
  [.i .VirtualPow2 ⟨pow2, o.rs2, 0⟩, .r .MUL ⟨o.rd, o.rs1, pow2⟩]

def SLLI.inlineSequence (o : FormatI) : List BasicOp :=
  [.i .VirtualMULI ⟨o.rd, o.rs1, (1 : U64) <<< (o.imm &&& 0x3f).toNat⟩]

def SLLW.inlineSequence (o : FormatR) (next : Nat) : List BasicOp :=
  let pow2 := next
  [.i .VirtualPow2W ⟨pow2, o.rs2, 0⟩,
   .r .MUL ⟨o.rd, o.rs1, pow2⟩,
   .i .VirtualSignExtendWord ⟨o.rd, o.rd, 0⟩]

def SLLIW.inlineSequence (o : FormatI) : List BasicOp :=
  [.i .VirtualMULI ⟨o.rd, o.rs1, (1 : U64) <<< (o.imm &&& 0x1f).toNat⟩,
   .i .VirtualSignExtendWord ⟨o.rd, o.rd, 0⟩]

/-- A right shift by a register, through its bitmask. -/
def rightShiftSequence (op : ShiftROp) (o : FormatR) (next : Nat) : List BasicOp :=
  let bitmask := next
  [.i .VirtualShiftRightBitmask ⟨bitmask, o.rs2, 0⟩, .shiftR op ⟨o.rd, o.rs1, bitmask⟩]

def SRL.inlineSequence : FormatR → Nat → List BasicOp := rightShiftSequence .VirtualSRL
def SRA.inlineSequence : FormatR → Nat → List BasicOp := rightShiftSequence .VirtualSRA

/-- A right shift by an immediate, through its bitmask. -/
def rightShiftISequence (op : ShiftIOp) (o : FormatI) : List BasicOp :=
  [.shiftI op ⟨o.rd, o.rs1, shiftRightBitmask (o.imm &&& 0x3f).toNat⟩]

def SRLI.inlineSequence : FormatI → List BasicOp := rightShiftISequence .VirtualSRLI
def SRAI.inlineSequence : FormatI → List BasicOp := rightShiftISequence .VirtualSRAI

def SRLW.inlineSequence (o : FormatR) (next : Nat) : List BasicOp :=
  let bitmask := next
  let rs1 := next + 1
  List.flatten [
    SLLI.inlineSequence ⟨rs1, o.rs1, 32⟩,
    [.i .ORI ⟨bitmask, o.rs2, 32⟩,
     .i .VirtualShiftRightBitmask ⟨bitmask, bitmask, 0⟩,
     .shiftR .VirtualSRL ⟨o.rd, rs1, bitmask⟩,
     .i .VirtualSignExtendWord ⟨o.rd, o.rd, 0⟩]]

def SRLIW.inlineSequence (o : FormatI) (next : Nat) : List BasicOp :=
  let rs1 := next
  List.flatten [
    SLLI.inlineSequence ⟨rs1, o.rs1, 32⟩,
    [.shiftI .VirtualSRLI ⟨o.rd, rs1, shiftRightBitmask ((o.imm &&& 0x1f).toNat + 32)⟩,
     .i .VirtualSignExtendWord ⟨o.rd, o.rd, 0⟩]]

def SRAW.inlineSequence (o : FormatR) (next : Nat) : List BasicOp :=
  let rs1 := next
  let bitmask := next + 1
  [.i .VirtualSignExtendWord ⟨rs1, o.rs1, 0⟩,
   .i .ANDI ⟨bitmask, o.rs2, 0x1f⟩,
   .i .VirtualShiftRightBitmask ⟨bitmask, bitmask, 0⟩,
   .shiftR .VirtualSRA ⟨o.rd, rs1, bitmask⟩,
   .i .VirtualSignExtendWord ⟨o.rd, o.rd, 0⟩]

def SRAIW.inlineSequence (o : FormatI) (next : Nat) : List BasicOp :=
  let rs1 := next
  [.i .VirtualSignExtendWord ⟨rs1, o.rs1, 0⟩,
   .shiftI .VirtualSRAI ⟨o.rd, rs1, shiftRightBitmask (o.imm &&& 0x1f).toNat⟩,
   .i .VirtualSignExtendWord ⟨o.rd, o.rd, 0⟩]

/-! ## Division

The quotient and the remainder's magnitude come as advice, which the
assertions check. -/

def DIV.inlineSequence (o : FormatR) (next : Nat) : List BasicOp :=
  let a2 := next
  let a3 := next + 1
  let t0 := next + 2
  let t1 := next + 3
  let t2 := next + 4
  let t3 := next + 5
  List.flatten [
    [.VirtualAdvice ⟨a2, 0⟩ 0,
     .VirtualAdvice ⟨a3, 0⟩ 0,
     .assert .VirtualAssertValidDiv0 ⟨o.rs2, a2, 0⟩,
     .r .VirtualChangeDivisor ⟨t0, o.rs1, o.rs2⟩],
    MULH.inlineSequence ⟨t1, a2, t0⟩ (next + 4),
    [.r .MUL ⟨t2, a2, t0⟩],
    SRAI.inlineSequence ⟨t3, t2, 63⟩,
    [.assert .VirtualAssertEQ ⟨t1, t3, 0⟩],
    SRAI.inlineSequence ⟨t1, o.rs1, 63⟩,
    [.r .XOR ⟨t3, a3, t1⟩,
     .r .SUB ⟨t3, t3, t1⟩,
     .r .ADD ⟨t2, t2, t3⟩,
     .assert .VirtualAssertEQ ⟨t2, o.rs1, 0⟩],
    SRAI.inlineSequence ⟨t1, t0, 63⟩,
    [.r .XOR ⟨t3, t0, t1⟩,
     .r .SUB ⟨t3, t3, t1⟩,
     .assert .VirtualAssertValidUnsignedRemainder ⟨a3, t3, 0⟩,
     .i .ADDI ⟨o.rd, a2, 0⟩]]

def REM.inlineSequence (o : FormatR) (next : Nat) : List BasicOp :=
  let a2 := next
  let a3 := next + 1
  let t0 := next + 2
  let t1 := next + 3
  let t2 := next + 4
  let t3 := next + 5
  List.flatten [
    [.VirtualAdvice ⟨a2, 0⟩ 0,
     .VirtualAdvice ⟨a3, 0⟩ 0,
     .assert .VirtualAssertValidDiv0 ⟨o.rs2, a2, 0⟩,
     .r .VirtualChangeDivisor ⟨t0, o.rs1, o.rs2⟩],
    MULH.inlineSequence ⟨t1, a2, t0⟩ (next + 4),
    [.r .MUL ⟨t2, a2, t0⟩],
    SRAI.inlineSequence ⟨t3, t2, 63⟩,
    [.assert .VirtualAssertEQ ⟨t1, t3, 0⟩],
    SRAI.inlineSequence ⟨t1, o.rs1, 63⟩,
    [.r .XOR ⟨t3, a3, t1⟩,
     .r .SUB ⟨t3, t3, t1⟩,
     .r .ADD ⟨t2, t2, t3⟩,
     .assert .VirtualAssertEQ ⟨t2, o.rs1, 0⟩],
    SRAI.inlineSequence ⟨t1, t0, 63⟩,
    [.r .XOR ⟨t2, t0, t1⟩,
     .r .SUB ⟨t2, t2, t1⟩,
     .assert .VirtualAssertValidUnsignedRemainder ⟨a3, t2, 0⟩,
     .i .ADDI ⟨o.rd, t3, 0⟩]]

/-- `DIVW` and `REMW`, up to the register that the last instruction extends
into `rd`. -/
def divRemWSequence (o : FormatR) (next result : Nat) : List BasicOp :=
  let a2 := next
  let a3 := next + 1
  let t0 := next + 2
  let t1 := next + 3
  let t2 := next + 4
  let t3 := next + 5
  let t4 := next + 6
  List.flatten [
    [.VirtualAdvice ⟨a2, 0⟩ 0,
     .VirtualAdvice ⟨a3, 0⟩ 0,
     .i .VirtualSignExtendWord ⟨t4, o.rs1, 0⟩,
     .i .VirtualSignExtendWord ⟨t3, o.rs2, 0⟩,
     .assert .VirtualAssertValidDiv0 ⟨t3, a2, 0⟩,
     .r .VirtualChangeDivisorW ⟨t0, t4, t3⟩,
     .i .VirtualSignExtendWord ⟨t1, a2, 0⟩,
     .assert .VirtualAssertEQ ⟨t1, a2, 0⟩],
    SRAI.inlineSequence ⟨t2, a3, 31⟩,
    [.assert .VirtualAssertEQ ⟨t2, 0, 0⟩],
    SRAI.inlineSequence ⟨t2, t4, 31⟩,
    [.r .XOR ⟨t3, a3, t2⟩,
     .r .SUB ⟨t3, t3, t2⟩,
     .r .MUL ⟨t1, a2, t0⟩,
     .r .ADD ⟨t1, t1, t3⟩,
     .assert .VirtualAssertEQ ⟨t1, t4, 0⟩],
    SRAI.inlineSequence ⟨t2, t0, 31⟩,
    [.r .XOR ⟨t1, t0, t2⟩,
     .r .SUB ⟨t1, t1, t2⟩,
     .assert .VirtualAssertValidUnsignedRemainder ⟨a3, t1, 0⟩,
     .i .VirtualSignExtendWord ⟨o.rd, result, 0⟩]]

/-- The result is `a2`, the quotient. -/
def DIVW.inlineSequence (o : FormatR) (next : Nat) : List BasicOp := divRemWSequence o next next

/-- The result is `t3`, the signed remainder. -/
def REMW.inlineSequence (o : FormatR) (next : Nat) : List BasicOp :=
  divRemWSequence o next (next + 5)

def DIVU.inlineSequence (o : FormatR) (next : Nat) : List BasicOp :=
  let v0 := next
  let v1 := next + 1
  [.VirtualAdvice ⟨v0, 0⟩ 0,
   .assert .VirtualAssertValidDiv0 ⟨o.rs2, v0, 0⟩,
   .assert .VirtualAssertMulUNoOverflow ⟨v0, o.rs2, 0⟩,
   .r .MUL ⟨v1, v0, o.rs2⟩,
   .assert .VirtualAssertLTE ⟨v1, o.rs1, 0⟩,
   .r .SUB ⟨v1, o.rs1, v1⟩,
   .assert .VirtualAssertValidUnsignedRemainder ⟨v1, o.rs2, 0⟩,
   .i .ADDI ⟨o.rd, v0, 0⟩]

def REMU.inlineSequence (o : FormatR) (next : Nat) : List BasicOp :=
  let v0 := next
  [.VirtualAdvice ⟨v0, 0⟩ 0,
   .assert .VirtualAssertMulUNoOverflow ⟨v0, o.rs2, 0⟩,
   .r .MUL ⟨v0, v0, o.rs2⟩,
   .assert .VirtualAssertLTE ⟨v0, o.rs1, 0⟩,
   .r .SUB ⟨v0, o.rs1, v0⟩,
   .assert .VirtualAssertValidUnsignedRemainder ⟨v0, o.rs2, 0⟩,
   .i .ADDI ⟨o.rd, v0, 0⟩]

def DIVUW.inlineSequence (o : FormatR) (next : Nat) : List BasicOp :=
  let rs1 := next
  let rs2 := next + 1
  let quo := next + 2
  let temp := next + 3
  [.i .VirtualZeroExtendWord ⟨rs1, o.rs1, 0⟩,
   .i .VirtualZeroExtendWord ⟨rs2, o.rs2, 0⟩,
   .VirtualAdvice ⟨quo, 0⟩ 0,
   .assert .VirtualAssertMulUNoOverflow ⟨quo, rs2, 0⟩,
   .r .MUL ⟨temp, quo, rs2⟩,
   .assert .VirtualAssertLTE ⟨temp, rs1, 0⟩,
   .r .SUB ⟨temp, rs1, temp⟩,
   .assert .VirtualAssertValidUnsignedRemainder ⟨temp, rs2, 0⟩,
   .i .VirtualSignExtendWord ⟨temp, quo, 0⟩,
   .assert .VirtualAssertValidDiv0 ⟨rs2, temp, 0⟩,
   .i .ADDI ⟨o.rd, temp, 0⟩]

def REMUW.inlineSequence (o : FormatR) (next : Nat) : List BasicOp :=
  let rs1 := next
  let rs2 := next + 1
  let tmp := next + 2
  [.i .VirtualZeroExtendWord ⟨rs1, o.rs1, 0⟩,
   .i .VirtualZeroExtendWord ⟨rs2, o.rs2, 0⟩,
   .VirtualAdvice ⟨tmp, 0⟩ 0,
   .assert .VirtualAssertMulUNoOverflow ⟨tmp, rs2, 0⟩,
   .r .MUL ⟨tmp, tmp, rs2⟩,
   .assert .VirtualAssertLTE ⟨tmp, rs1, 0⟩,
   .r .SUB ⟨tmp, rs1, tmp⟩,
   .assert .VirtualAssertValidUnsignedRemainder ⟨tmp, rs2, 0⟩,
   .i .VirtualSignExtendWord ⟨o.rd, tmp, 0⟩]

/-! ## Loads and stores

Memory is touched through aligned `LD` and `SD` only. -/

/-- `-8`, the mask of an aligned doubleword. -/
def dwordMask : U64 := -8

/-- The aligned doubleword an address lies in goes to `v1`, the address to `v0`. -/
def loadDword (rs1 : Nat) (imm : U64) (v0 v1 dword : Nat) : List BasicOp :=
  [.i .ADDI ⟨v0, rs1, imm⟩, .i .ANDI ⟨v1, v0, dwordMask⟩, .LD ⟨dword, v1, 0⟩]

/-- The loads that shift the field to the top of the doubleword, by the
distance that `flip` turns the low address bits into, and back down. -/
def loadSequence (flip : U64) (shift : FormatI → List BasicOp) (amount : U64) (o : FormatLoad)
    (next : Nat) : List BasicOp :=
  let v0 := next
  let v1 := next + 1
  List.flatten [
    loadDword o.rs1 o.imm v0 v1 v1,
    [.i .XORI ⟨v0, v0, flip⟩],
    SLLI.inlineSequence ⟨v0, v0, 3⟩,
    SLL.inlineSequence ⟨v1, v1, v0⟩ (next + 2),
    shift ⟨o.rd, v1, amount⟩]

def LB.inlineSequence : FormatLoad → Nat → List BasicOp := loadSequence 7 SRAI.inlineSequence 56
def LBU.inlineSequence : FormatLoad → Nat → List BasicOp := loadSequence 7 SRLI.inlineSequence 56

def LH.inlineSequence (o : FormatLoad) (next : Nat) : List BasicOp :=
  .align .VirtualAssertHalfwordAlignment ⟨o.rs1, o.imm⟩ ::
    loadSequence 6 SRAI.inlineSequence 48 o next

def LHU.inlineSequence (o : FormatLoad) (next : Nat) : List BasicOp :=
  .align .VirtualAssertHalfwordAlignment ⟨o.rs1, o.imm⟩ ::
    loadSequence 6 SRLI.inlineSequence 48 o next

def LWU.inlineSequence (o : FormatLoad) (next : Nat) : List BasicOp :=
  .align .VirtualAssertWordAlignment ⟨o.rs1, o.imm⟩ ::
    loadSequence 4 SRLI.inlineSequence 32 o next

def LW.inlineSequence (o : FormatLoad) (next : Nat) : List BasicOp :=
  let v0 := next
  let v1 := next + 1
  List.flatten [
    [.align .VirtualAssertWordAlignment ⟨o.rs1, o.imm⟩],
    loadDword o.rs1 o.imm v0 v1 v1,
    SLLI.inlineSequence ⟨v0, v0, 3⟩,
    SRL.inlineSequence ⟨v1, v1, v0⟩ (next + 2),
    [.i .VirtualSignExtendWord ⟨o.rd, v1, 0⟩]]

/-- The stores of a field that `LUI` can make the mask of. -/
def storeSequence (mask : U64) (o : FormatS) (next : Nat) : List BasicOp :=
  let v0 := next
  let v1 := next + 1
  let v2 := next + 2
  let v3 := next + 3
  List.flatten [
    loadDword o.rs1 o.imm v0 v1 v2,
    SLLI.inlineSequence ⟨v3, v0, 3⟩,
    [.u .LUI ⟨v0, mask⟩],
    SLL.inlineSequence ⟨v0, v0, v3⟩ (next + 4),
    SLL.inlineSequence ⟨v3, o.rs2, v3⟩ (next + 4),
    [.r .XOR ⟨v3, v2, v3⟩,
     .r .AND ⟨v3, v3, v0⟩,
     .r .XOR ⟨v2, v2, v3⟩,
     .SD ⟨v1, v2, 0⟩]]

def SB.inlineSequence : FormatS → Nat → List BasicOp := storeSequence 0xff

def SH.inlineSequence (o : FormatS) (next : Nat) : List BasicOp :=
  .align .VirtualAssertHalfwordAlignment ⟨o.rs1, o.imm⟩ :: storeSequence 0xffff o next

def SW.inlineSequence (o : FormatS) (next : Nat) : List BasicOp :=
  let v0 := next
  let v1 := next + 1
  let v2 := next + 2
  let v3 := next + 3
  List.flatten [
    [.align .VirtualAssertWordAlignment ⟨o.rs1, o.imm⟩],
    loadDword o.rs1 o.imm v0 v1 v2,
    SLLI.inlineSequence ⟨v0, v0, 3⟩,
    [.i .ORI ⟨v3, 0, -1⟩],
    SRLI.inlineSequence ⟨v3, v3, 32⟩,
    SLL.inlineSequence ⟨v3, v3, v0⟩ (next + 4),
    SLL.inlineSequence ⟨v0, o.rs2, v0⟩ (next + 4),
    [.r .XOR ⟨v0, v2, v0⟩,
     .r .AND ⟨v0, v0, v3⟩,
     .r .XOR ⟨v2, v2, v0⟩,
     .SD ⟨v1, v2, 0⟩]]

/-! ## Atomics (`tracer/src/instruction/amo.rs`) -/

/-- `amo_pre64`: the word at `rs1` goes to the low half of `rd`. -/
def amoPre64 (rs1 rd dword shift next : Nat) : List BasicOp :=
  List.flatten [
    [.align .VirtualAssertWordAlignment ⟨rs1, 0⟩,
     .i .ANDI ⟨shift, rs1, dwordMask⟩,
     .LD ⟨dword, shift, 0⟩],
    SLLI.inlineSequence ⟨shift, rs1, 3⟩,
    SRL.inlineSequence ⟨rd, dword, shift⟩ next]

/-- `amo_post64`: the word at `rs1` becomes the low half of `rs2`. -/
def amoPost64 (rs1 rs2 dword shift mask rd vRd next : Nat) : List BasicOp :=
  List.flatten [
    [.i .ORI ⟨mask, 0, -1⟩],
    SRLI.inlineSequence ⟨mask, mask, 32⟩,
    SLL.inlineSequence ⟨mask, mask, shift⟩ next,
    SLL.inlineSequence ⟨shift, rs2, shift⟩ next,
    [.r .XOR ⟨shift, dword, shift⟩,
     .r .AND ⟨shift, shift, mask⟩,
     .r .XOR ⟨dword, dword, shift⟩,
     .i .ANDI ⟨mask, rs1, dwordMask⟩,
     .SD ⟨mask, dword, 0⟩,
     .i .VirtualSignExtendWord ⟨rd, vRd, 0⟩]]

/-- The word atomics whose new value is one operation on the old one and `rs2`. -/
def amoArithW (op : ROp) (o : FormatR) (next : Nat) : List BasicOp :=
  let rd := next
  let rs2 := next + 1
  let mask := next + 2
  let dword := next + 3
  let shift := next + 4
  List.flatten [
    amoPre64 o.rs1 rd dword shift (next + 5),
    [.r op ⟨rs2, rd, o.rs2⟩],
    amoPost64 o.rs1 rs2 dword shift mask o.rd rd (next + 5)]

def AMOADDW.inlineSequence : FormatR → Nat → List BasicOp := amoArithW .ADD
def AMOANDW.inlineSequence : FormatR → Nat → List BasicOp := amoArithW .AND
def AMOORW.inlineSequence : FormatR → Nat → List BasicOp := amoArithW .OR
def AMOXORW.inlineSequence : FormatR → Nat → List BasicOp := amoArithW .XOR

def AMOSWAPW.inlineSequence (o : FormatR) (next : Nat) : List BasicOp :=
  let mask := next
  let dword := next + 1
  let shift := next + 2
  let rd := next + 3
  List.flatten [
    amoPre64 o.rs1 rd dword shift (next + 4),
    amoPost64 o.rs1 o.rs2 dword shift mask o.rd rd (next + 4)]

/-- The word atomics that select: both words are extended by `extend`,
`compare` on them, or on them exchanged, tells whether `rs2` is stored. -/
def amoSelectW (extend : IOp) (compare : ROp) (exchange : Bool) (o : FormatR) (next : Nat) :
    List BasicOp :=
  let rd := next
  let dword := next + 1
  let shift := next + 2
  let rs2 := next + 3
  let v0 := next + 4
  List.flatten [
    amoPre64 o.rs1 rd dword shift (next + 3),
    [.i extend ⟨rs2, o.rs2, 0⟩,
     .i extend ⟨v0, rd, 0⟩,
     .r compare (if exchange then ⟨v0, rs2, v0⟩ else ⟨v0, v0, rs2⟩),
     .r .SUB ⟨rs2, o.rs2, rd⟩,
     .r .MUL ⟨rs2, rs2, v0⟩,
     .r .ADD ⟨rs2, rs2, rd⟩],
    amoPost64 o.rs1 rs2 dword shift v0 o.rd rd (next + 5)]

def AMOMAXW.inlineSequence : FormatR → Nat → List BasicOp :=
  amoSelectW .VirtualSignExtendWord .SLT false
def AMOMINW.inlineSequence : FormatR → Nat → List BasicOp :=
  amoSelectW .VirtualSignExtendWord .SLT true
def AMOMAXUW.inlineSequence : FormatR → Nat → List BasicOp :=
  amoSelectW .VirtualZeroExtendWord .SLTU false
def AMOMINUW.inlineSequence : FormatR → Nat → List BasicOp :=
  amoSelectW .VirtualZeroExtendWord .SLTU true

/-- The doubleword atomics whose new value is one operation on the old one
and `rs2`. -/
def amoArithD (op : ROp) (o : FormatR) (next : Nat) : List BasicOp :=
  let rs2 := next
  let rd := next + 1
  [.LD ⟨rd, o.rs1, 0⟩, .r op ⟨rs2, rd, o.rs2⟩, .SD ⟨o.rs1, rs2, 0⟩, .i .ADDI ⟨o.rd, rd, 0⟩]

def AMOADDD.inlineSequence : FormatR → Nat → List BasicOp := amoArithD .ADD
def AMOANDD.inlineSequence : FormatR → Nat → List BasicOp := amoArithD .AND
def AMOORD.inlineSequence : FormatR → Nat → List BasicOp := amoArithD .OR
def AMOXORD.inlineSequence : FormatR → Nat → List BasicOp := amoArithD .XOR

def AMOSWAPD.inlineSequence (o : FormatR) (next : Nat) : List BasicOp :=
  let rd := next
  [.LD ⟨rd, o.rs1, 0⟩, .SD ⟨o.rs1, o.rs2, 0⟩, .i .ADDI ⟨o.rd, rd, 0⟩]

/-- The doubleword atomics that select. -/
def amoSelectD (compare : ROp) (exchange : Bool) (o : FormatR) (next : Nat) : List BasicOp :=
  let v0 := next
  let v1 := next + 1
  let v2 := next + 2
  [.LD ⟨v0, o.rs1, 0⟩,
   .r compare (if exchange then ⟨v1, o.rs2, v0⟩ else ⟨v1, v0, o.rs2⟩),
   .r .SUB ⟨v2, o.rs2, v0⟩,
   .r .MUL ⟨v2, v2, v1⟩,
   .r .ADD ⟨v1, v0, v2⟩,
   .SD ⟨o.rs1, v1, 0⟩,
   .i .ADDI ⟨o.rd, v0, 0⟩]

def AMOMAXD.inlineSequence : FormatR → Nat → List BasicOp := amoSelectD .SLT false
def AMOMIND.inlineSequence : FormatR → Nat → List BasicOp := amoSelectD .SLT true
def AMOMAXUD.inlineSequence : FormatR → Nat → List BasicOp := amoSelectD .SLTU false
def AMOMINUD.inlineSequence : FormatR → Nat → List BasicOp := amoSelectD .SLTU true

/-! ## Load-reserved and store-conditional

The reservation is in register 32 for words and 33 for doublewords. -/

def LRW.inlineSequence (o : FormatR) (next : Nat) : List BasicOp :=
  List.flatten [
    [.i .ADDI ⟨reservationWRegister, o.rs1, 0⟩,
     .i .ADDI ⟨reservationDRegister, 0, 0⟩],
    LW.inlineSequence ⟨o.rd, o.rs1, 0⟩ next]

def LRD.inlineSequence (o : FormatR) : List BasicOp :=
  [.i .ADDI ⟨reservationDRegister, o.rs1, 0⟩,
   .i .ADDI ⟨reservationWRegister, 0, 0⟩,
   .LD ⟨o.rd, o.rs1, 0⟩]

/-- `v_success` is advice: 0 or 1, and 1 only if the reservation is `rs1`. -/
def scPrelude (reservation rs1 success scratch : Nat) : List BasicOp :=
  [.VirtualAdvice ⟨success, 0⟩ 0,
   .i .ADDI ⟨scratch, 0, 1⟩,
   .assert .VirtualAssertLTE ⟨success, scratch, 0⟩,
   .r .SUB ⟨scratch, reservation, rs1⟩,
   .r .MUL ⟨scratch, success, scratch⟩,
   .assert .VirtualAssertEQ ⟨scratch, 0, 0⟩]

/-- The two reservation registers double as spill slots for `v_success` and
for the word to store. -/
def SCW.inlineSequence (o : FormatR) (next : Nat) : List BasicOp :=
  let success := next
  let mem := next
  let diff := next + 1
  List.flatten [
    scPrelude reservationWRegister o.rs1 success (next + 1),
    [.i .ADDI ⟨reservationWRegister, success, 0⟩],
    LW.inlineSequence ⟨mem, o.rs1, 0⟩ (next + 1),
    [.r .SUB ⟨diff, o.rs2, mem⟩,
     .r .MUL ⟨diff, diff, reservationWRegister⟩,
     .r .ADD ⟨diff, mem, diff⟩,
     .i .ADDI ⟨reservationDRegister, diff, 0⟩],
    SW.inlineSequence ⟨o.rs1, reservationDRegister, 0⟩ next,
    [.i .XORI ⟨o.rd, reservationWRegister, 1⟩,
     .i .ADDI ⟨reservationWRegister, 0, 0⟩,
     .i .ADDI ⟨reservationDRegister, 0, 0⟩]]

def SCD.inlineSequence (o : FormatR) (next : Nat) : List BasicOp :=
  let success := next
  let mem := next + 1
  let diff := next + 2
  List.flatten [
    scPrelude reservationDRegister o.rs1 success (next + 1),
    [.LD ⟨mem, o.rs1, 0⟩,
     .r .SUB ⟨diff, o.rs2, mem⟩,
     .r .MUL ⟨diff, diff, success⟩,
     .r .ADD ⟨diff, mem, diff⟩,
     .SD ⟨o.rs1, diff, 0⟩,
     .i .ADDI ⟨reservationDRegister, 0, 0⟩,
     .i .ADDI ⟨reservationWRegister, 0, 0⟩,
     .i .XORI ⟨o.rd, success, 1⟩]]

/-! ## Advice loads -/

/-- `FormatAdviceLoadI`. -/
structure FormatAdviceLoadI where
  rd : Nat
  imm : U64
deriving DecidableEq

/-- The advice loads narrower than a doubleword: `numBytes` bytes from the
tape, sign-extended by a shift up and down. -/
def adviceLoadSequence (numBytes amount : U64) (o : FormatAdviceLoadI) : List BasicOp :=
  List.flatten [
    [.VirtualAdviceLoad ⟨o.rd, numBytes⟩],
    SLLI.inlineSequence ⟨o.rd, o.rd, amount⟩,
    SRAI.inlineSequence ⟨o.rd, o.rd, amount⟩]

def AdviceLB.inlineSequence : FormatAdviceLoadI → List BasicOp := adviceLoadSequence 1 56
def AdviceLH.inlineSequence : FormatAdviceLoadI → List BasicOp := adviceLoadSequence 2 48
def AdviceLW.inlineSequence : FormatAdviceLoadI → List BasicOp := adviceLoadSequence 4 32
def AdviceLD.inlineSequence (o : FormatAdviceLoadI) : List BasicOp := [.VirtualAdviceLoad ⟨o.rd, 8⟩]

/-! ## System instructions

Their control registers are virtual registers in the sequences. -/

/-- `csr_address`. -/
def csrAddress (o : FormatI) : Nat := (o.imm &&& 0xfff).toNat

/-- A control register of address 0 gives a `NoOp`, one without a virtual
register panics. -/
def CSRRW.inlineSequence (o : FormatI) (next : Nat) : Option (List BasicOp) :=
  if csrAddress o = 0 then .some [.noOp]
  else do
    let vr ← csrToVirtualRegister (csrAddress o)
    let temp := next
    if o.rd = 0 then .some [.i .ADDI ⟨vr, o.rs1, 0⟩]
    else if o.rd = o.rs1 then
      .some [.i .ADDI ⟨temp, o.rs1, 0⟩, .i .ADDI ⟨o.rd, vr, 0⟩, .i .ADDI ⟨vr, temp, 0⟩]
    else .some [.i .ADDI ⟨o.rd, vr, 0⟩, .i .ADDI ⟨vr, o.rs1, 0⟩]

def CSRRS.inlineSequence (o : FormatI) (next : Nat) : Option (List BasicOp) :=
  if csrAddress o = 0 then .some [.noOp]
  else do
    let vr ← csrToVirtualRegister (csrAddress o)
    let temp := next
    if o.rs1 = 0 then .some [.i .ADDI ⟨o.rd, vr, 0⟩]
    else if o.rd = 0 then .some [.r .OR ⟨vr, vr, o.rs1⟩]
    else if o.rd = o.rs1 then
      .some [.i .ADDI ⟨temp, o.rs1, 0⟩, .i .ADDI ⟨o.rd, vr, 0⟩, .r .OR ⟨vr, vr, temp⟩]
    else .some [.i .ADDI ⟨o.rd, vr, 0⟩, .r .OR ⟨vr, vr, o.rs1⟩]

/-- `MCAUSE_ECALL_FROM_MMODE`. -/
def mcauseEcallFromMmode : U64 := 11

def ECALL.inlineSequence (next : Nat) : List BasicOp :=
  let ecallAddr := next
  let three := next
  let jalrRd := next
  List.flatten [
    [.u .AUIPC ⟨ecallAddr, 0⟩,
     .i .ADDI ⟨mepcRegister, ecallAddr, 0⟩,
     .i .ADDI ⟨mcauseRegister, 0, mcauseEcallFromMmode⟩,
     .i .ADDI ⟨mtvalRegister, 0, 0⟩,
     .i .ADDI ⟨three, 0, 3⟩],
    SLLI.inlineSequence ⟨mstatusRegister, three, 11⟩,
    [.JALR ⟨jalrRd, trapHandlerRegister, 0⟩]]

def MRET.inlineSequence (next : Nat) : List BasicOp := [.JALR ⟨next, mepcRegister, 0⟩]

end LightningJolt
