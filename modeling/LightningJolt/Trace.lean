/-
Tracing (`tracer/src/instruction/mod.rs`, `inline.rs`): the cycle a basic
instruction pushes, the sequence any other one is traced as, and the rewriting
of instructions whose `rd` is `x0`.
-/
import LightningJolt.Composite

namespace LightningJolt

/-! ## Cycles -/

/-- A `Cycle` of a basic instruction, its `RegisterState` as the values of the
registers it names; that of `rd` before and after. -/
structure Cycle where
  instruction : BasicInstruction
  rs1 : Option U64
  rs2 : Option U64
  rd : Option (U64 × U64)
  ramAccess : RamAccess
deriving DecidableEq

namespace BasicInstruction

/-- The default `RISCVTrace::trace`: one cycle. -/
def traceRaw (i : BasicInstruction) : CpuM (List Cycle) := fun cpu => do
  let n := i.op.normalize
  let (ramAccess, cpu') ← i.op.exec i.address cpu
  pure ([{
    instruction := i
    rs1 := n.rs1.map cpu.x.read
    rs2 := n.rs2.map cpu.x.read
    rd := n.rd.map fun r => (cpu.x.read r, cpu'.x.read r)
    ramAccess }], cpu')

/-- `InstrAssembler::finalize`: the fields around the operations of a
sequence. Only the last instruction keeps `is_compressed`. -/
def finalize (address : U64) (isCompressed : Bool) (ops : List BasicOp) : List BasicInstruction :=
  ops.mapIdx fun i op => {
    op, address
    virtualSequenceRemaining := .some ((ops.length - i - 1) % 2 ^ 16)
    isFirstInSequence := i == 0
    isCompressed := isCompressed && i + 1 == ops.length }

/-- `addi x0, x0, 0` in the place of an instruction. -/
def nop (address : U64) (isCompressed : Bool) : BasicInstruction where
  op := .i .ADDI ⟨0, 0, 0⟩
  address := address
  virtualSequenceRemaining := .none
  isFirstInSequence := false
  isCompressed := isCompressed

/-- `Instruction::inline_sequence` of a basic instruction: with `rd` other
than `x0` itself. Else `rd` moves to a virtual register if there is anything
but `rd` to write, and a no-op takes its place if not; `EBREAK` stays. -/
def inlineSequence (i : BasicInstruction) : BasicInstruction :=
  if i.op.rd = .some 0 then
    match i.op with
    | .EBREAK _ => i
    | op =>
      if op.hasSideEffects then { i with op := op.withRd firstVirtualRegister }
      else nop i.address i.isCompressed
  else i

/-- `Instruction::trace` of a basic instruction. -/
def trace (i : BasicInstruction) : CpuM (List Cycle) := i.inlineSequence.traceRaw

/-- The loop of every `RISCVTrace::trace` over its sequence. -/
def traceAll : List BasicInstruction → CpuM (List Cycle)
  | [] => pure []
  | i :: is => do
    let c ← i.trace
    let cs ← traceAll is
    pure (c ++ cs)

/-- The loop of `Instruction::trace` over the rewriting of an `x0` instruction. -/
def traceAllRaw : List BasicInstruction → CpuM (List Cycle)
  | [] => pure []
  | i :: is => do
    let c ← i.traceRaw
    let cs ← traceAllRaw is
    pure (c ++ cs)

end BasicInstruction

/-! ## Inlines of the `jolt-inlines` crates -/

structure FormatInline where
  rs1 : Nat
  rs2 : Nat
  rs3 : Nat
deriving DecidableEq

/-- `AdviceFn`, by what the registered functions do to the processor: they
read registers and load doublewords, and end in the advice or in a panic. -/
inductive AdviceFn
  | done (advice : Option (List U64))
  | fail
  | readRegister (reg : Nat) (k : U64 → AdviceFn)
  | loadDoubleword (address : U64) (k : U64 → AdviceFn)

def AdviceFn.run : AdviceFn → CpuM (Option (List U64))
  | .done advice => pure advice
  | .fail => failure
  | .readRegister reg k => do
    let cpu ← get
    (k (cpu.x.read reg)).run
  | .loadDoubleword address k => do
    let (value, _) ← Cpu.onMmu (Mmu.loadDoubleword address.toNat)
    (k value).run

/-- `is_valid_virtual_rd`, which the assembler of an inline asserts. -/
def validVirtualRd (rd : Option Nat) : Bool :=
  match rd with
  | .some rd => rd = 0 || firstVirtualRegister ≤ rd
  | .none => true

/-- The instructions the registered builders emit, expanded. -/
def BasicOp.emittedByInlines (op : BasicOp) : Bool :=
  validVirtualRd op.rd &&
    match op with
    | .r rop _ => rop ≠ .VirtualChangeDivisor && rop ≠ .VirtualChangeDivisorW
    | .i iop o => (iop ≠ .VirtualPow2 && iop ≠ .VirtualShiftRightBitmask) || o.imm = 0
    | .shiftI .. | .shiftR .. | .align .. | .LD _ | .SD _ => true
    | .u uop _ => uop = .LUI
    | .assert aop o => (aop = .VirtualAssertEQ || aop = .VirtualAssertLTE) && o.imm = 0
    | .VirtualAdvice _ advice => advice = 0
    | _ => false

/-- `InlineRegistration`. The builder also takes the lowest free virtual
register, as the sequences it nests do. -/
structure InlineRegistration where
  buildSequence : FormatInline → Nat → List BasicOp
  buildAdvice : FormatInline → AdviceFn
  emitted : ∀ o next, firstVirtualRegister ≤ next →
    ∀ op ∈ buildSequence o next, op.emittedByInlines

/-- The registered inlines, by opcode, funct3 and funct7: `find_inline`. -/
abbrev Inlines := Nat → Nat → Nat → Option InlineRegistration

/-- `INLINE`. -/
structure InlineOp where
  opcode : Nat
  funct3 : Nat
  funct7 : Nat
  operands : FormatInline
deriving DecidableEq

/-- The advice put into the sequence's `VirtualAdvice` instructions in turn;
too few or too many values are a panic. -/
def fillInlineAdvice : List BasicOp → List U64 → Option (List BasicOp)
  | [], [] => .some []
  | [], _ :: _ => .none
  | .VirtualAdvice o _ :: ops, v :: vs => do
    let rest ← fillInlineAdvice ops vs
    pure (.VirtualAdvice o v :: rest)
  | .VirtualAdvice .. :: _, [] => .none
  | op :: ops, vs => do
    let rest ← fillInlineAdvice ops vs
    pure (op :: rest)

/-! ## Instructions -/

inductive Op
  | basic (op : BasicOp)
  | seq (op : SeqOp)
  | inline (op : InlineOp)
deriving DecidableEq

namespace Op

/-- The conversions of the formats into `NormalizedOperands`. -/
def normalize : Op → NormalizedOperands
  | .basic op => op.normalize
  | .seq op => op.normalize
  | .inline op => ⟨.some op.operands.rs1, .some op.operands.rs2, .some op.operands.rs3, 0⟩

/-- `FormatInline` maps `rd` to `rs3`. -/
abbrev rd (op : Op) : Option Nat := op.normalize.rd

def withRd (rd : Nat) : Op → Op
  | .basic op => .basic (op.withRd rd)
  | .seq op => .seq (op.withRd rd)
  | .inline op => .inline { op with operands := { op.operands with rs3 := rd } }

def hasSideEffects : Op → Bool
  | .basic op => op.hasSideEffects
  | .seq op => op.hasSideEffects
  | .inline _ => true

/-- The instructions whose sequences handle `rd = x0` themselves. -/
def handlesX0 : Op → Bool
  | .basic (.EBREAK _) => true
  | .seq (.ECALL _) | .seq (.MRET _) | .seq (.CSRRW _) | .seq (.CSRRS _) => true
  | _ => false

end Op

/-- An `Instruction`: its operation, and the fields of its struct. -/
structure Instruction where
  op : Op
  address : U64
  virtualSequenceRemaining : Option Nat
  isFirstInSequence : Bool
  isCompressed : Bool
deriving DecidableEq

namespace Instruction

variable (inlines : Inlines)

/-- `dispatch_inline_sequence`, `next` being the lowest free virtual register. -/
def dispatchInlineSequence (i : Instruction) (next : Nat) : Option (List BasicInstruction) :=
  match i.op with
  | .basic op => .some [{
      op, address := i.address
      virtualSequenceRemaining := i.virtualSequenceRemaining
      isFirstInSequence := i.isFirstInSequence
      isCompressed := i.isCompressed }]
  | .seq op => do
    let ops ← op.inlineSequence next
    pure (BasicInstruction.finalize i.address i.isCompressed ops)
  | .inline op => do
    let reg ← inlines op.opcode op.funct3 op.funct7
    pure (BasicInstruction.finalize i.address i.isCompressed (reg.buildSequence op.operands next))

/-- `Instruction::inline_sequence`, with every virtual register free. -/
def inlineSequence (i : Instruction) : Option (List BasicInstruction) :=
  if i.op.rd = .some 0 then
    if i.op.handlesX0 then i.dispatchInlineSequence inlines firstVirtualRegister
    else if i.op.hasSideEffects then
      { i with op := i.op.withRd firstVirtualRegister }.dispatchInlineSequence inlines
        (firstVirtualRegister + 1)
    else .some [.nop i.address i.isCompressed]
  else i.dispatchInlineSequence inlines firstVirtualRegister

/-- The `RISCVTrace::trace` of each instruction, which `trace_raw` calls. The
load-reserveds set the emulator's reservation before their sequence runs, the
store-conditionals clear it after. `INLINE` with `rs3 = x0` does not get here:
`trace` rewrites it. -/
def traceRaw (i : Instruction) : CpuM (List Cycle) :=
  match i.op with
  | .basic op => BasicInstruction.traceRaw {
      op, address := i.address
      virtualSequenceRemaining := i.virtualSequenceRemaining
      isFirstInSequence := i.isFirstInSequence
      isCompressed := i.isCompressed }
  | .seq op => do
    if let .lr width o := op then
      modify fun cpu => cpu.setReservation (cpu.x.read o.rs1) width
    let cpu ← get
    let ops ← StateT.lift (op.inlineSequence firstVirtualRegister >>= op.fillAdvice cpu)
    let cycles ← BasicInstruction.traceAll (BasicInstruction.finalize i.address i.isCompressed ops)
    if let .sc .. := op then
      modify Cpu.clearReservation
    pure cycles
  | .inline op => do
    let reg ← StateT.lift (inlines op.opcode op.funct3 op.funct7)
    let advice ← (reg.buildAdvice op.operands).run
    let ops := reg.buildSequence op.operands firstVirtualRegister
    let ops ← match advice with
      | .some values => StateT.lift (fillInlineAdvice ops values)
      | .none => pure ops
    BasicInstruction.traceAll (BasicInstruction.finalize i.address i.isCompressed ops)

/-- `Instruction::trace`. -/
def trace (i : Instruction) : CpuM (List Cycle) := do
  if i.op.rd = .some 0 then
    let seq ← StateT.lift (i.inlineSequence inlines)
    BasicInstruction.traceAllRaw seq
  else i.traceRaw inlines

/-- `Instruction::execute`; `INLINE` has no `exec`. -/
def execute (i : Instruction) : CpuM RamAccess :=
  match i.op with
  | .basic op => op.exec i.address
  | .seq op => op.exec i.address
  | .inline _ => failure

end Instruction

end LightningJolt
