/-
The instructions with an inline sequence, as operations of their own: what
`exec` makes of each of them, which the sequence has to agree with, and the
advice its `trace` fills in.
-/
import LightningJolt.Sequence
import LightningJolt.Trap

namespace LightningJolt

/-! ## Operations -/

inductive SeqROp
  | DIV | DIVU | DIVW | DIVUW | REM | REMU | REMW | REMUW
  | MULH | MULHSU | MULW | ADDW | SUBW
  | SLL | SLLW | SRL | SRLW | SRA | SRAW
deriving DecidableEq

inductive SeqIOp
  | ADDIW | SLLI | SLLIW | SRLI | SRLIW | SRAI | SRAIW
deriving DecidableEq

inductive LoadOp
  | LB | LBU | LH | LHU | LW | LWU
deriving DecidableEq

inductive StoreOp
  | SB | SH | SW
deriving DecidableEq

/-- The atomics, `AMO` and the width left off their names. -/
inductive AmoOp
  | ADD | AND | OR | XOR | SWAP | MAX | MIN | MAXU | MINU
deriving DecidableEq

inductive AdviceOp
  | AdviceLB | AdviceLH | AdviceLW | AdviceLD
deriving DecidableEq

inductive SeqOp
  | r (op : SeqROp) (o : FormatR)
  | i (op : SeqIOp) (o : FormatI)
  | load (op : LoadOp) (o : FormatLoad)
  | store (op : StoreOp) (o : FormatS)
  | amo (op : AmoOp) (width : ReservationWidth) (o : FormatR)
  | lr (width : ReservationWidth) (o : FormatR)
  | sc (width : ReservationWidth) (o : FormatR)
  | advice (op : AdviceOp) (o : FormatAdviceLoadI)
  | CSRRW (o : FormatI)
  | CSRRS (o : FormatI)
  | ECALL (o : FormatI)
  | MRET (o : FormatI)
deriving DecidableEq

/-! ## Values -/

/-- `as i32 as i64`. -/
def signExtendWord (a : U64) : U64 := (a.setWidth 32).signExtend 64

def lowWord (a : U64) : U32 := a.setWidth 32

/-- `as u32 as u64`. -/
def zeroExtendWord (a : U64) : U64 := (lowWord a).setWidth 64

/-- What an R-type instruction writes to `rd`. -/
def SeqROp.eval (op : SeqROp) (a b : U64) : U64 :=
  match op with
  | .DIV => if b = 0 then -1 else if a = BitVec.intMin 64 ∧ b = -1 then a else a.sdiv b
  | .DIVU => if b = 0 then -1 else a / b
  | .REM => if b = 0 then a else if a = BitVec.intMin 64 ∧ b = -1 then 0 else a.srem b
  | .REMU => if b = 0 then a else a % b
  | .DIVW =>
    let (x, y) := (lowWord a, lowWord b)
    (if y = 0 then (-1 : U32) else if x = BitVec.intMin 32 ∧ y = -1 then x else x.sdiv y).signExtend 64
  | .DIVUW =>
    let (x, y) := (lowWord a, lowWord b)
    (if y = 0 then (-1 : U32) else x / y).signExtend 64
  | .REMW =>
    let (x, y) := (lowWord a, lowWord b)
    (if y = 0 then x else if x = BitVec.intMin 32 ∧ y = -1 then 0 else x.srem y).signExtend 64
  | .REMUW =>
    let (x, y) := (lowWord a, lowWord b)
    (if y = 0 then x else x % y).signExtend 64
  | .MULH => ((a.signExtend 128 * b.signExtend 128).sshiftRight 64).setWidth 64
  | .MULHSU => ((a.signExtend 128 * b.setWidth 128) >>> 64).setWidth 64
  | .MULW => (lowWord a * lowWord b).signExtend 64
  | .ADDW => signExtendWord (a + b)
  | .SUBW => signExtendWord (a - b)
  | .SLL => a <<< (b &&& 0x3f).toNat
  | .SRL => a >>> (b &&& 0x3f).toNat
  | .SRA => a.sshiftRight (b &&& 0x3f).toNat
  | .SLLW => (lowWord a <<< (b &&& 0x1f).toNat).signExtend 64
  | .SRLW => (lowWord a >>> (b &&& 0x1f).toNat).signExtend 64
  | .SRAW => ((lowWord a).sshiftRight (b &&& 0x1f).toNat).signExtend 64

/-- What an I-type instruction writes to `rd`. -/
def SeqIOp.eval (op : SeqIOp) (a imm : U64) : U64 :=
  match op with
  | .ADDIW => signExtendWord (a + imm)
  | .SLLI => a <<< (imm &&& 0x3f).toNat
  | .SRLI => a >>> (imm &&& 0x3f).toNat
  | .SRAI => a.sshiftRight (imm &&& 0x3f).toNat
  | .SLLIW => (lowWord a <<< (imm &&& 0x1f).toNat).signExtend 64
  | .SRLIW => (lowWord a >>> (imm &&& 0x1f).toNat).signExtend 64
  | .SRAIW => ((lowWord a).sshiftRight (imm &&& 0x1f).toNat).signExtend 64

/-- What an atomic stores, of the value it found and `rs2`. -/
def AmoOp.eval {w : Nat} (op : AmoOp) (original value : BitVec w) : BitVec w :=
  match op with
  | .ADD => original + value
  | .AND => original &&& value
  | .OR => original ||| value
  | .XOR => original ^^^ value
  | .SWAP => value
  | .MAX => if value.sle original then original else value
  | .MIN => if original.sle value then original else value
  | .MAXU => if value ≤ original then original else value
  | .MINU => if original ≤ value then original else value

/-! ## Execution -/

/-- The `exec` of a load: the field, extended, and the access. -/
def LoadOp.read (op : LoadOp) (address : Nat) : MmuM (U64 × RamRead) := do
  match op with
  | .LB =>
    let (b, r) ← Mmu.load address
    pure (b.signExtend 64, r)
  | .LBU =>
    let (b, r) ← Mmu.load address
    pure (b.setWidth 64, r)
  | .LH =>
    let (h, r) ← Mmu.loadHalfword address
    pure (h.signExtend 64, r)
  | .LHU =>
    let (h, r) ← Mmu.loadHalfword address
    pure (h.setWidth 64, r)
  | .LW =>
    let (w, r) ← Mmu.loadWord address
    pure (w.signExtend 64, r)
  | .LWU =>
    let (w, r) ← Mmu.loadWord address
    pure (w.setWidth 64, r)

def StoreOp.write (op : StoreOp) (address : Nat) (value : U64) : MmuM RamWrite :=
  match op with
  | .SB => Mmu.store address (value.setWidth 8)
  | .SH => Mmu.storeHalfword address (value.setWidth 16)
  | .SW => Mmu.storeWord address (lowWord value)

/-- The memory half of an atomic: the old value, sign-extended. -/
def AmoOp.update (op : AmoOp) (width : ReservationWidth) (address : Nat) (value : U64) :
    MmuM U64 := do
  match width with
  | .word =>
    let (original, _) ← Mmu.loadWord address
    let _ ← Mmu.storeWord address (op.eval original (lowWord value))
    pure (original.signExtend 64)
  | .doubleword =>
    let (original, _) ← Mmu.loadDoubleword address
    let _ ← Mmu.storeDoubleword address (op.eval original value)
    pure original

/-- The memory half of a load-reserved. -/
def readReserved (width : ReservationWidth) (address : Nat) : MmuM U64 := do
  match width with
  | .word =>
    let (w, _) ← Mmu.loadWord address
    pure (w.signExtend 64)
  | .doubleword =>
    let (d, _) ← Mmu.loadDoubleword address
    pure d

/-- The memory half of a store-conditional that succeeds. -/
def writeConditional (width : ReservationWidth) (address : Nat) (value : U64) : MmuM RamWrite :=
  match width with
  | .word => Mmu.storeWord address (lowWord value)
  | .doubleword => Mmu.storeDoubleword address value

/-- The bytes an advice load takes off the tape. -/
def AdviceOp.numBytes : AdviceOp → Nat
  | .AdviceLB => 1
  | .AdviceLH => 2
  | .AdviceLW => 4
  | .AdviceLD => 8

/-- What an advice load writes to `rd`, of the value it read. -/
def AdviceOp.extend (op : AdviceOp) (value : U64) : U64 :=
  match op with
  | .AdviceLB => (value.setWidth 8).signExtend 64
  | .AdviceLH => (value.setWidth 16).signExtend 64
  | .AdviceLW => signExtendWord value
  | .AdviceLD => value

namespace SeqOp

/-- The `exec` of each instruction, with the access it recorded. -/
def exec (address : U64) : SeqOp → CpuM RamAccess
  | .r op o => fun cpu => writeRd o.rd (op.eval (cpu.x.read o.rs1) (cpu.x.read o.rs2)) cpu
  | .i op o => fun cpu => writeRd o.rd (op.eval (cpu.x.read o.rs1) o.imm) cpu
  | .load op o => do
    let cpu ← get
    let (value, memoryRead) ← Cpu.onMmu (op.read (cpu.x.read o.rs1 + o.imm).toNat)
    modify fun cpu => cpu.writeRegister o.rd value
    pure (.read memoryRead)
  | .store op o => do
    let cpu ← get
    let memoryWrite ←
      Cpu.onMmu (op.write (cpu.x.read o.rs1 + o.imm).toNat (cpu.x.read o.rs2))
    pure (.write memoryWrite)
  | .amo op width o => do
    let cpu ← get
    let original ← Cpu.onMmu (op.update width (cpu.x.read o.rs1).toNat (cpu.x.read o.rs2))
    modify fun cpu => cpu.writeRegister o.rd original
    pure .noOp
  | .lr width o => do
    let cpu ← get
    let address := cpu.x.read o.rs1
    let value ← Cpu.onMmu (readReserved width address.toNat)
    modify fun cpu => (cpu.setReservation address width).writeRegister o.rd value
    pure .noOp
  | .sc width o => do
    let cpu ← get
    let address := cpu.x.read o.rs1
    if cpu.hasReservation address width then
      let memoryWrite ← Cpu.onMmu (writeConditional width address.toNat (cpu.x.read o.rs2))
      modify fun cpu => (cpu.writeRegister o.rd 0).clearReservation
      pure (.write memoryWrite)
    else
      modify fun cpu => (cpu.writeRegister o.rd 1).clearReservation
      pure .noOp
  | .advice op o => fun cpu => do
    let (value, adviceTape) ← cpu.adviceTape.read op.numBytes
    writeRd o.rd (op.extend value) { cpu with adviceTape := adviceTape }
  | .CSRRW o => fun cpu => do
    let old ← cpu.readCsrRaw (csrAddress o)
    let cpu' ← cpu.writeCsrRaw (csrAddress o) (cpu.x.read o.rs1)
    writeRd o.rd old cpu'
  | .CSRRS o => fun cpu => do
    let old ← cpu.readCsrRaw (csrAddress o)
    let cpu' ← if o.rs1 ≠ 0 then cpu.writeCsrRaw (csrAddress o) (old ||| cpu.x.read o.rs1)
      else .some cpu
    writeRd o.rd old cpu'
  | .ECALL _ => do
    let cpu ← get
    let trapType := match cpu.privilegeMode with
      | .user => .environmentCallFromUMode
      | .supervisor => .environmentCallFromSMode
      | .machine | .reserved => TrapType.environmentCallFromMMode
    let _ ← Cpu.handleTrap trapType 0 address false
    pure .noOp
  | .MRET _ => fun cpu => do
    let mepc ← cpu.readCsrRaw csrMepcAddress
    pure (.noOp, { cpu with pc := mepc })

/-- The conversions of the formats into `NormalizedOperands`. -/
def normalize : SeqOp → NormalizedOperands
  | .r _ o => ⟨.some o.rs1, .some o.rs2, .some o.rd, 0⟩
  | .i _ o | .CSRRW o | .CSRRS o | .ECALL o | .MRET o =>
    ⟨.some o.rs1, .none, .some o.rd, o.imm.toNat⟩
  | .load _ o => ⟨.some o.rs1, .none, .some o.rd, o.imm.toInt⟩
  | .store _ o => ⟨.some o.rs1, .some o.rs2, .none, o.imm.toInt⟩
  | .amo _ _ o | .lr _ o | .sc _ o => ⟨.some o.rs1, .some o.rs2, .some o.rd, 0⟩
  | .advice _ o => ⟨.none, .none, .some o.rd, o.imm.toNat⟩

/-- The register the instruction writes, of the formats that have one. -/
abbrev rd (op : SeqOp) : Option Nat := op.normalize.rd

/-- The instruction with `rd` overwritten: `InstructionFormat::set_rd`. -/
def withRd (rd : Nat) : SeqOp → SeqOp
  | .r op o => .r op { o with rd }
  | .i op o => .i op { o with rd }
  | .load op o => .load op { o with rd }
  | .store op o => .store op o
  | .amo op width o => .amo op width { o with rd }
  | .lr width o => .lr width { o with rd }
  | .sc width o => .sc width { o with rd }
  | .advice op o => .advice op { o with rd }
  | .CSRRW o => .CSRRW { o with rd }
  | .CSRRS o => .CSRRS { o with rd }
  | .ECALL o => .ECALL { o with rd }
  | .MRET o => .MRET { o with rd }

/-- The instructions declared with `side_effects = true`. -/
def hasSideEffects : SeqOp → Bool
  | .r .. | .i .. | .load .. => false
  | _ => true

end SeqOp

/-! ## Sequences -/

def SeqROp.inlineSequence : SeqROp → FormatR → Nat → List BasicOp
  | .DIV => DIV.inlineSequence
  | .DIVU => DIVU.inlineSequence
  | .DIVW => DIVW.inlineSequence
  | .DIVUW => DIVUW.inlineSequence
  | .REM => REM.inlineSequence
  | .REMU => REMU.inlineSequence
  | .REMW => REMW.inlineSequence
  | .REMUW => REMUW.inlineSequence
  | .MULH => MULH.inlineSequence
  | .MULHSU => MULHSU.inlineSequence
  | .MULW => fun o _ => MULW.inlineSequence o
  | .ADDW => fun o _ => ADDW.inlineSequence o
  | .SUBW => fun o _ => SUBW.inlineSequence o
  | .SLL => SLL.inlineSequence
  | .SLLW => SLLW.inlineSequence
  | .SRL => SRL.inlineSequence
  | .SRLW => SRLW.inlineSequence
  | .SRA => SRA.inlineSequence
  | .SRAW => SRAW.inlineSequence

def SeqIOp.inlineSequence : SeqIOp → FormatI → Nat → List BasicOp
  | .ADDIW => fun o _ => ADDIW.inlineSequence o
  | .SLLI => fun o _ => SLLI.inlineSequence o
  | .SLLIW => fun o _ => SLLIW.inlineSequence o
  | .SRLI => fun o _ => SRLI.inlineSequence o
  | .SRLIW => SRLIW.inlineSequence
  | .SRAI => fun o _ => SRAI.inlineSequence o
  | .SRAIW => SRAIW.inlineSequence

def LoadOp.inlineSequence : LoadOp → FormatLoad → Nat → List BasicOp
  | .LB => LB.inlineSequence
  | .LBU => LBU.inlineSequence
  | .LH => LH.inlineSequence
  | .LHU => LHU.inlineSequence
  | .LW => LW.inlineSequence
  | .LWU => LWU.inlineSequence

def StoreOp.inlineSequence : StoreOp → FormatS → Nat → List BasicOp
  | .SB => SB.inlineSequence
  | .SH => SH.inlineSequence
  | .SW => SW.inlineSequence

def AmoOp.inlineSequence : AmoOp → ReservationWidth → FormatR → Nat → List BasicOp
  | .ADD, .word => AMOADDW.inlineSequence
  | .AND, .word => AMOANDW.inlineSequence
  | .OR, .word => AMOORW.inlineSequence
  | .XOR, .word => AMOXORW.inlineSequence
  | .SWAP, .word => AMOSWAPW.inlineSequence
  | .MAX, .word => AMOMAXW.inlineSequence
  | .MIN, .word => AMOMINW.inlineSequence
  | .MAXU, .word => AMOMAXUW.inlineSequence
  | .MINU, .word => AMOMINUW.inlineSequence
  | .ADD, .doubleword => AMOADDD.inlineSequence
  | .AND, .doubleword => AMOANDD.inlineSequence
  | .OR, .doubleword => AMOORD.inlineSequence
  | .XOR, .doubleword => AMOXORD.inlineSequence
  | .SWAP, .doubleword => AMOSWAPD.inlineSequence
  | .MAX, .doubleword => AMOMAXD.inlineSequence
  | .MIN, .doubleword => AMOMIND.inlineSequence
  | .MAXU, .doubleword => AMOMAXUD.inlineSequence
  | .MINU, .doubleword => AMOMINUD.inlineSequence

def AdviceOp.inlineSequence : AdviceOp → FormatAdviceLoadI → List BasicOp
  | .AdviceLB => AdviceLB.inlineSequence
  | .AdviceLH => AdviceLH.inlineSequence
  | .AdviceLW => AdviceLW.inlineSequence
  | .AdviceLD => AdviceLD.inlineSequence

/-- `RISCVTrace::inline_sequence`, before `finalize` adds the fields around
the operations; `none` where a control register is not supported. -/
def SeqOp.inlineSequence (next : Nat) : SeqOp → Option (List BasicOp)
  | .r op o => .some (op.inlineSequence o next)
  | .i op o => .some (op.inlineSequence o next)
  | .load op o => .some (op.inlineSequence o next)
  | .store op o => .some (op.inlineSequence o next)
  | .amo op width o => .some (op.inlineSequence width o next)
  | .lr .word o => .some (LRW.inlineSequence o next)
  | .lr .doubleword o => .some (LRD.inlineSequence o)
  | .sc .word o => .some (SCW.inlineSequence o next)
  | .sc .doubleword o => .some (SCD.inlineSequence o next)
  | .advice op o => .some (op.inlineSequence o)
  | .CSRRW o => CSRRW.inlineSequence o next
  | .CSRRS o => CSRRS.inlineSequence o next
  | .ECALL _ => .some (ECALL.inlineSequence next)
  | .MRET _ => .some (MRET.inlineSequence next)

/-! ## Advice -/

/-- `trace` writing a value into the sequence's `VirtualAdvice` at `i`; any
other instruction there is a panic. -/
def setAdvice (i : Nat) (value : U64) (ops : List BasicOp) : Option (List BasicOp) :=
  match ops[i]? with
  | .some (.VirtualAdvice o _) => .some (ops.set i (.VirtualAdvice o value))
  | _ => .none

/-- The quotient and remainder `DIV::trace` and `REM::trace` supply. -/
def divAdvice (x y : U64) : U64 × U64 :=
  if y = 0 then (-1, x.abs)
  else if x = BitVec.intMin 64 ∧ y = -1 then (x, 0)
  else (x.sdiv y, (x.srem y).abs)

/-- The same of `DIVW::trace` and `REMW::trace`: the quotient is an `i32`, the
remainder's magnitude a `u32`. -/
def divWAdvice (x y : U32) : U64 × U64 :=
  if y = 0 then ((-1 : U32).signExtend 64, x.abs.setWidth 64)
  else if y = -1 ∧ x = BitVec.intMin 32 then ((BitVec.intMin 32).signExtend 64, 0)
  else ((x.sdiv y).signExtend 64, (x.srem y).abs.setWidth 64)

def divuAdvice (x y : U64) : U64 := if y = 0 then -1 else x / y

def divuwAdvice (x y : U32) : U64 := if y = 0 then 0xffffffff else (x / y).setWidth 64

/-- The advice an instruction's own `trace` fills its sequence with. -/
def SeqOp.fillAdvice (cpu : Cpu) (op : SeqOp) (ops : List BasicOp) : Option (List BasicOp) :=
  match op with
  | .r .DIV o | .r .REM o => do
    let (quotient, remainder) := divAdvice (cpu.x.read o.rs1) (cpu.x.read o.rs2)
    setAdvice 1 remainder (← setAdvice 0 quotient ops)
  | .r .DIVW o | .r .REMW o => do
    let (quotient, remainder) := divWAdvice (lowWord (cpu.x.read o.rs1)) (lowWord (cpu.x.read o.rs2))
    setAdvice 1 remainder (← setAdvice 0 quotient ops)
  | .r .DIVU o | .r .REMU o => setAdvice 0 (divuAdvice (cpu.x.read o.rs1) (cpu.x.read o.rs2)) ops
  | .r .DIVUW o | .r .REMUW o =>
    setAdvice 2 (divuwAdvice (lowWord (cpu.x.read o.rs1)) (lowWord (cpu.x.read o.rs2))) ops
  | .sc width o => setAdvice 0 (if cpu.hasReservation (cpu.x.read o.rs1) width then 1 else 0) ops
  | _ => .some ops

end LightningJolt
