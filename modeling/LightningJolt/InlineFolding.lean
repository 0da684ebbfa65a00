/-
The arithmetic helpers of the inline assembler
(`tracer/src/utils/inline_helpers.rs`, with the instructions they emit from
`tracer/src/instruction`): a helper folds its operands when they are
immediates and emits an instruction when one is a register, at either word
size. Arithmetic is that of a build without overflow checks: a shift amount is
masked to the width it shifts, and a subtraction wraps.
-/
import LightningJolt.Expansion
import LightningJolt.LookupEntry

namespace LightningJolt

/-! ## Words (`tracer/src/emulator/cpu.rs`) -/

inductive Xlen where
  | Bit32 | Bit64
  deriving DecidableEq

/-- `Cpu::sign_extend`. -/
def Xlen.signExtend (xlen : Xlen) (value : U64) : U64 :=
  match xlen with
  | .Bit32 => signExtendWord value
  | .Bit64 => value

/-- `Cpu::unsigned_data`. -/
def Xlen.unsignedData (xlen : Xlen) (value : U64) : U64 :=
  match xlen with
  | .Bit32 => value &&& 0xffffffff
  | .Bit64 => value

/-- `normalize_imm`. -/
def Xlen.normalizeImm (xlen : Xlen) (imm : U64) : U64 :=
  match xlen with
  | .Bit32 => signExtendWord imm
  | .Bit64 => imm

/-- Whether two values are the same word. -/
def Xlen.Agree (xlen : Xlen) (a b : U64) : Prop :=
  match xlen with
  | .Bit32 => lowWord a = lowWord b
  | .Bit64 => a = b

instance {xlen : Xlen} {a b : U64} : Decidable (xlen.Agree a b) := by
  cases xlen <;> unfold Xlen.Agree <;> infer_instance

/-! ## The instructions the helpers emit -/

namespace InlineAssembler

inductive RInstr where
  | ADD | XOR | AND
  deriving DecidableEq

inductive IInstr where
  | ADDI | XORI | ANDI | SRLI | SRLIW
  deriving DecidableEq

inductive VShiftInstr where
  | VirtualROTRI | VirtualROTRIW
  deriving DecidableEq

/-- What `exec` writes to `rd`. -/
def RInstr.exec (xlen : Xlen) (op : RInstr) (a b : U64) : U64 :=
  match op with
  | .ADD => xlen.signExtend (a + b)
  | .XOR => xlen.signExtend (a ^^^ b)
  | .AND => xlen.signExtend (a &&& b)

/-- What `exec` writes to `rd`. -/
def IInstr.exec (xlen : Xlen) (op : IInstr) (a imm : U64) : U64 :=
  match op with
  | .ADDI => xlen.signExtend (a + xlen.normalizeImm imm)
  | .XORI => xlen.signExtend (a ^^^ xlen.normalizeImm imm)
  | .ANDI => xlen.signExtend (a &&& xlen.normalizeImm imm)
  | .SRLI =>
    let mask : U64 := match xlen with
      | .Bit32 => 0x1f
      | .Bit64 => 0x3f
    xlen.signExtend (wrappingShr (xlen.unsignedData a) (imm &&& mask).toNat)
  | .SRLIW => (lowWord a >>> (imm &&& 0x1f).toNat).signExtend 64

/-- What `exec` writes to `rd`; the word rotation panics at 32 bits. -/
def VShiftInstr.exec (xlen : Xlen) (op : VShiftInstr) (a imm : U64) : Option U64 :=
  match op, xlen with
  | .VirtualROTRI, .Bit32 =>
    .some (Xlen.Bit32.signExtend (((lowWord a).rotateRight (trailingZeros imm)).signExtend 64))
  | .VirtualROTRI, .Bit64 => .some (a.rotateRight (trailingZeros imm))
  | .VirtualROTRIW, .Bit32 => .none
  | .VirtualROTRIW, .Bit64 => .some (((lowWord a).rotateRight (min (trailingZeros imm) 32)).setWidth 64)

/-! At 64 bits these are the instructions of the tracer. -/

theorem RInstr.exec_bit64 (a b : U64) :
    RInstr.exec .Bit64 .ADD a b = ROp.eval .ADD a b ∧ RInstr.exec .Bit64 .XOR a b = ROp.eval .XOR a b ∧
      RInstr.exec .Bit64 .AND a b = ROp.eval .AND a b := ⟨rfl, rfl, rfl⟩

theorem IInstr.exec_bit64 (a imm : U64) :
    IInstr.exec .Bit64 .ADDI a imm = IOp.eval .ADDI a imm ∧
      IInstr.exec .Bit64 .XORI a imm = IOp.eval .XORI a imm ∧
      IInstr.exec .Bit64 .ANDI a imm = IOp.eval .ANDI a imm ∧
      IInstr.exec .Bit64 .SRLI a imm = SeqIOp.eval .SRLI a imm ∧
      IInstr.exec .Bit64 .SRLIW a imm = SeqIOp.eval .SRLIW a imm := by
  refine ⟨rfl, rfl, rfl, ?_, rfl⟩
  show wrappingShr a (imm &&& 0x3f).toNat = a >>> (imm &&& 0x3f).toNat
  rw [wrappingShr, Nat.mod_eq_of_lt (and_0x3f_lt imm)]

theorem VShiftInstr.exec_bit64 (a imm : U64) :
    VShiftInstr.exec .Bit64 .VirtualROTRI a imm = .some (ShiftIOp.eval .VirtualROTRI a imm) ∧
      VShiftInstr.exec .Bit64 .VirtualROTRIW a imm = .some (ShiftIOp.eval .VirtualROTRIW a imm) :=
  ⟨rfl, rfl⟩

/-- An instruction with its operands. -/
inductive Instr where
  | r (op : RInstr) (rd rs1 rs2 : Nat)
  | i (op : IInstr) (rd rs1 : Nat) (imm : U64)
  | vshift (op : VShiftInstr) (rd rs1 : Nat) (imm : U64)
  deriving DecidableEq

def Instr.rd : Instr → Nat
  | .r _ rd _ _ => rd
  | .i _ rd _ _ => rd
  | .vshift _ rd _ _ => rd

/-- What an instruction computes for `rd` from the registers. -/
def Instr.exec (xlen : Xlen) (regs : Nat → U64) : Instr → Option U64
  | .r op _ rs1 rs2 => .some (op.exec xlen (regs rs1) (regs rs2))
  | .i op _ rs1 imm => .some (op.exec xlen (regs rs1) imm)
  | .vshift op _ rs1 imm => op.exec xlen (regs rs1) imm

/-! ## The assembler -/

/-- An operand: an immediate or a register. -/
inductive Value where
  | imm (v : U64)
  | reg (r : Nat)
  deriving DecidableEq

/-- `InstrAssembler`: the word size, the instructions emitted so far, and
whether a destination must be an inline's own register. -/
structure InstrAssembler where
  xlen : Xlen
  sequence : List Instr
  hasInlineInstrFormat : Bool
  deriving DecidableEq

namespace InstrAssembler

variable (asm : InstrAssembler)

/-- `is_valid_virtual_rd`: the registers of the architecture and the reserved
ones are not an inline's to write. -/
def isValidVirtualRd (rd : Nat) : Bool := rd == 0 || decide (firstVirtualRegister ≤ rd)

/-- `add_to_sequence`; it panics on a destination that is not valid. The
instruction stands for its `inline_sequence`, which computes the same. -/
def addToSequence (inst : Instr) : Option InstrAssembler := do
  if asm.hasInlineInstrFormat then
    guard (isValidVirtualRd inst.rd = true)
  .some { asm with sequence := asm.sequence ++ [inst] }

def emitR (op : RInstr) (rd rs1 rs2 : Nat) : Option InstrAssembler := asm.addToSequence (.r op rd rs1 rs2)

def emitI (op : IInstr) (rd rs1 : Nat) (imm : U64) : Option InstrAssembler :=
  asm.addToSequence (.i op rd rs1 imm)

def emitVshiftI (op : VShiftInstr) (rd rs1 : Nat) (imm : U64) : Option InstrAssembler :=
  asm.addToSequence (.vshift op rd rs1 imm)

/-- `bin`: the operands are exchanged to bring a lone immediate second. -/
def bin (OR : RInstr) (OI : IInstr) (rs1 rs2 : Value) (rd : Nat) (fold : U64 → U64 → U64) :
    Option (Value × InstrAssembler) :=
  match rs1, rs2 with
  | .reg r1, .reg r2 => do
    let asm ← asm.emitR OR rd r1 r2
    .some (.reg rd, asm)
  | .reg r1, .imm imm => do
    let asm ← asm.emitI OI rd r1 imm
    .some (.reg rd, asm)
  | .imm imm, .reg r2 => do
    let asm ← asm.emitI OI rd r2 imm
    .some (.reg rd, asm)
  | .imm i1, .imm i2 => .some (.imm (fold i1 i2), asm)

def add (rs1 rs2 : Value) (rd : Nat) : Option (Value × InstrAssembler) :=
  asm.bin .ADD .ADDI rs1 rs2 rd (· + ·)

def xor (rs1 rs2 : Value) (rd : Nat) : Option (Value × InstrAssembler) :=
  asm.bin .XOR .XORI rs1 rs2 rd (· ^^^ ·)

def and (rs1 rs2 : Value) (rd : Nat) : Option (Value × InstrAssembler) :=
  asm.bin .AND .ANDI rs1 rs2 rd (· &&& ·)

def srli (rs1 : Value) (shamt : U32) (rd : Nat) : Option (Value × InstrAssembler) :=
  if shamt = 0 then asm.xor rs1 (.imm 0) rd
  else match rs1 with
    | .reg rs1 => do
      let asm ← match asm.xlen with
        | .Bit32 => asm.emitI .SRLI rd rs1 (shamt.setWidth 64)
        | .Bit64 => asm.emitI .SRLIW rd rs1 ((shamt &&& 0x1f).setWidth 64)
      .some (.reg rd, asm)
    | .imm val => .some (.imm ((lowWord val >>> (shamt.toNat % 32)).setWidth 64), asm)

def rotri32 (rs1 : Value) (shamt : U32) (rd : Nat) : Option (Value × InstrAssembler) :=
  if shamt = 0 ∨ shamt = 32 then asm.xor rs1 (.imm 0) rd
  else
    let ones : U64 := ((1 : U64) <<< ((32 - shamt).toNat % 64)) - 1
    let mask : U64 := ones <<< (shamt.toNat % 64)
    match rs1 with
    | .reg rs1Reg => do
      let asm ← match asm.xlen with
        | .Bit32 => asm.emitVshiftI .VirtualROTRI rd rs1Reg mask
        | .Bit64 => asm.emitVshiftI .VirtualROTRIW rd rs1Reg mask
      .some (.reg rd, asm)
    | .imm val => .some (.imm (((lowWord val).rotateRight shamt.toNat).setWidth 64), asm)

/-- `rotri`: the trailing zeros of the mask `imm` are the amount. -/
def rotri (rs1 : Value) (imm : U64) (rd : Nat) : Option (Value × InstrAssembler) :=
  match rs1 with
  | .reg rs1 => do
    let asm ← asm.emitVshiftI .VirtualROTRI rd rs1 imm
    .some (.reg rd, asm)
  | .imm val => .some (.imm (((lowWord val).rotateRight (trailingZeros imm)).setWidth 64), asm)

def rotr64 (rs1 : Value) (amount : U32) (rd : Nat) : Option (Value × InstrAssembler) :=
  if amount = 0 ∨ amount = 64 then asm.xor rs1 (.imm 0) rd
  else match rs1 with
    | .reg rs1Reg =>
      let ones : U64 := ((1 : U64) <<< ((64 - amount.setWidth 64 : U64).toNat % 64)) - 1
      let imm : U64 := ones <<< (amount.toNat % 64)
      asm.rotri (.reg rs1Reg) imm rd
    | .imm val => .some (.imm (val.rotateRight amount.toNat), asm)

def rotl64 (rs1 : Value) (amount : U32) (rd : Nat) : Option (Value × InstrAssembler) :=
  asm.rotr64 rs1 (64 - amount) rd

end InstrAssembler

/-! ## Words that agree -/

section Agreement

variable {xlen : Xlen} {a b x y : U64}

theorem agree_refl (a : U64) : xlen.Agree a a := by
  cases xlen <;> rfl

theorem agree_trans {c : U64} (hab : xlen.Agree a b) (hbc : xlen.Agree b c) : xlen.Agree a c := by
  cases xlen
  · exact Eq.trans hab hbc
  · exact Eq.trans hab hbc

theorem agree_symm (hab : xlen.Agree a b) : xlen.Agree b a := by
  cases xlen
  · exact Eq.symm hab
  · exact Eq.symm hab

theorem lowWord_signExtend (w : U32) : lowWord (w.signExtend 64) = w := by
  unfold lowWord
  ext i hi
  rw [BitVec.getElem_setWidth, BitVec.getLsbD_signExtend]
  simp [hi, show i < 64 by omega]

theorem lowWord_setWidth (w : U32) : lowWord (w.setWidth 64) = w := by
  unfold lowWord
  exact BitVec.setWidth_setWidth_of_le w (by decide)

theorem lowWord_signExtendWord (a : U64) : lowWord (signExtendWord a) = lowWord a :=
  lowWord_signExtend (lowWord a)

theorem agree_signExtend (a : U64) : xlen.Agree (xlen.signExtend a) a := by
  cases xlen
  · exact lowWord_signExtendWord a
  · rfl

theorem agree_normalizeImm (a : U64) : xlen.Agree (xlen.normalizeImm a) a := by
  cases xlen
  · exact lowWord_signExtendWord a
  · rfl

theorem agree_add (ha : xlen.Agree a x) (hb : xlen.Agree b y) : xlen.Agree (a + b) (x + y) := by
  cases xlen with
  | Bit32 =>
    simp only [Xlen.Agree, lowWord] at ha hb ⊢
    rw [BitVec.setWidth_add a b (by decide), BitVec.setWidth_add x y (by decide), ha, hb]
  | Bit64 =>
    simp only [Xlen.Agree] at ha hb ⊢
    rw [ha, hb]

theorem agree_xor (ha : xlen.Agree a x) (hb : xlen.Agree b y) : xlen.Agree (a ^^^ b) (x ^^^ y) := by
  cases xlen with
  | Bit32 =>
    simp only [Xlen.Agree, lowWord] at ha hb ⊢
    rw [BitVec.setWidth_xor, BitVec.setWidth_xor, ha, hb]
  | Bit64 =>
    simp only [Xlen.Agree] at ha hb ⊢
    rw [ha, hb]

theorem agree_and (ha : xlen.Agree a x) (hb : xlen.Agree b y) : xlen.Agree (a &&& b) (x &&& y) := by
  cases xlen with
  | Bit32 =>
    simp only [Xlen.Agree, lowWord] at ha hb ⊢
    rw [BitVec.setWidth_and, BitVec.setWidth_and, ha, hb]
  | Bit64 =>
    simp only [Xlen.Agree] at ha hb ⊢
    rw [ha, hb]

end Agreement

/-! ## What a result denotes -/

/-- Whether an operand is the constant `x`: that immediate, or a register that
holds it. -/
def Value.Holds (xlen : Xlen) (regs : Nat → U64) (v : Value) (x : U64) : Prop :=
  match v with
  | .imm i => i = x
  | .reg r => xlen.Agree (regs r) x

/-- What the result of a call denotes: an immediate stands for itself, and a
register for what the one instruction the call emitted computes. -/
def outcome (asm : InstrAssembler) (regs : Nat → U64) (result : Value × InstrAssembler) : Option U64 :=
  match result.1, result.2.sequence.drop asm.sequence.length with
  | .imm v, [] => .some v
  | .reg rd, [inst] => if inst.rd = rd then inst.exec asm.xlen regs else .none
  | _, _ => .none

section Outcomes

variable {asm asm' : InstrAssembler} {inst : Instr} {regs : Nat → U64}

@[simp] theorem outcome_imm (v : U64) : outcome asm regs (.imm v, asm) = .some v := by
  simp [outcome]

theorem addToSequence_some (h : asm.addToSequence inst = .some asm') :
    asm' = { asm with sequence := asm.sequence ++ [inst] } := by
  unfold InstrAssembler.addToSequence at h
  split_ifs at h
  · obtain ⟨_, -, h⟩ := Option.bind_eq_some_iff.mp h
    exact (Option.some.inj h).symm
  · exact (Option.some.inj h).symm

theorem outcome_emitted (h : asm.addToSequence inst = .some asm') :
    outcome asm regs (.reg inst.rd, asm') = inst.exec asm.xlen regs := by
  rw [addToSequence_some h]
  simp [outcome]

theorem addToSequence_free (h : asm.hasInlineInstrFormat = false) (inst : Instr) :
    asm.addToSequence inst = .some { asm with sequence := asm.sequence ++ [inst] } := by
  simp [InstrAssembler.addToSequence, h]

end Outcomes

/-! ## Helpers of two operands -/

/-- A pair of instructions that computes what `fold` does. -/
structure Folds (OR : RInstr) (OI : IInstr) (fold : U64 → U64 → U64) : Prop where
  reg {xlen : Xlen} {a b x y : U64} (ha : xlen.Agree a x) (hb : xlen.Agree b y) :
    xlen.Agree (OR.exec xlen a b) (fold x y)
  imm {xlen : Xlen} {a x : U64} (ha : xlen.Agree a x) (y : U64) :
    xlen.Agree (OI.exec xlen a y) (fold x y)
  comm (x y : U64) : fold x y = fold y x

theorem folds_add : Folds .ADD .ADDI (· + ·) where
  reg ha hb := agree_trans (agree_signExtend _) (agree_add ha hb)
  imm ha y := agree_trans (agree_signExtend _) (agree_add ha (agree_normalizeImm y))
  comm := BitVec.add_comm

theorem folds_xor : Folds .XOR .XORI (· ^^^ ·) where
  reg ha hb := agree_trans (agree_signExtend _) (agree_xor ha hb)
  imm ha y := agree_trans (agree_signExtend _) (agree_xor ha (agree_normalizeImm y))
  comm := BitVec.xor_comm

theorem folds_and : Folds .AND .ANDI (· &&& ·) where
  reg ha hb := agree_trans (agree_signExtend _) (agree_and ha hb)
  imm ha y := agree_trans (agree_signExtend _) (agree_and ha (agree_normalizeImm y))
  comm := BitVec.and_comm

section Binary

variable {asm : InstrAssembler} {regs : Nat → U64} {v1 v2 : Value} {x y : U64} {rd : Nat}
  {result : Value × InstrAssembler} {OR : RInstr} {OI : IInstr} {fold : U64 → U64 → U64}

/-- **A helper of two operands denotes the fold of its constants**, whichever
of them are registers. -/
theorem outcome_bin (hop : Folds OR OI fold) (h1 : v1.Holds asm.xlen regs x)
    (h2 : v2.Holds asm.xlen regs y) (h : asm.bin OR OI v1 v2 rd fold = .some result) :
    ∃ b, outcome asm regs result = .some b ∧ asm.xlen.Agree b (fold x y) := by
  cases v1 with
  | imm i1 =>
    obtain rfl : i1 = x := h1
    cases v2 with
    | imm i2 =>
      obtain rfl : i2 = y := h2
      obtain rfl := Option.some.inj h
      exact ⟨_, outcome_imm _, agree_refl _⟩
    | reg r2 =>
      obtain ⟨asm', hemit, h⟩ := Option.bind_eq_some_iff.mp h
      obtain rfl := Option.some.inj h
      refine ⟨_, outcome_emitted hemit, ?_⟩
      rw [hop.comm]
      exact hop.imm h2 i1
  | reg r1 =>
    cases v2 with
    | imm i2 =>
      obtain rfl : i2 = y := h2
      obtain ⟨asm', hemit, h⟩ := Option.bind_eq_some_iff.mp h
      obtain rfl := Option.some.inj h
      exact ⟨_, outcome_emitted hemit, hop.imm h1 i2⟩
    | reg r2 =>
      obtain ⟨asm', hemit, h⟩ := Option.bind_eq_some_iff.mp h
      obtain rfl := Option.some.inj h
      exact ⟨_, outcome_emitted hemit, hop.reg h1 h2⟩

/-- The copy an identity rotation or shift emits. -/
theorem outcome_copy (h1 : v1.Holds asm.xlen regs x) (h : asm.xor v1 (.imm 0) rd = .some result) :
    ∃ b, outcome asm regs result = .some b ∧ asm.xlen.Agree b x := by
  obtain ⟨b, hb, hagree⟩ := outcome_bin folds_xor h1 (show (Value.imm 0).Holds asm.xlen regs 0 from rfl) h
  refine ⟨b, hb, ?_⟩
  simpa using hagree

end Binary

/-! ## Shifts and rotations -/

/-- The trailing zeros of the mask a word rotation emits. -/
theorem trailingZeros_rotri32 (shamt : U32) :
    trailingZeros ((((1 : U64) <<< ((32 - shamt).toNat % 64)) - 1) <<< (shamt.toNat % 64)) =
      if shamt.toNat % 64 = 32 then 64 else shamt.toNat % 64 := by
  have key : ∀ s : Fin 64,
      trailingZeros ((((1 : U64) <<< ((96 - s.val) % 64)) - 1) <<< s.val) =
        if s.val = 32 then 64 else s.val := by decide
  have hsub : (32 - shamt).toNat % 64 = (96 - shamt.toNat % 64) % 64 := by
    rw [BitVec.toNat_sub]
    simp only [BitVec.reduceToNat]
    omega
  rw [hsub]
  exact key ⟨shamt.toNat % 64, Nat.mod_lt _ (by decide)⟩

/-- The trailing zeros of the mask a doubleword rotation emits. -/
theorem trailingZeros_rotr64 (amount : U32) :
    trailingZeros ((((1 : U64) <<< ((64 - amount.setWidth 64 : U64).toNat % 64)) - 1) <<<
        (amount.toNat % 64)) =
      if amount.toNat % 64 = 0 then 64 else amount.toNat % 64 := by
  have key : ∀ s : Fin 64,
      trailingZeros ((((1 : U64) <<< ((64 - s.val) % 64)) - 1) <<< s.val) =
        if s.val = 0 then 64 else s.val := by decide
  have hsub : (64 - amount.setWidth 64 : U64).toNat % 64 = (64 - amount.toNat % 64) % 64 := by
    rw [BitVec.toNat_sub, BitVec.toNat_setWidth]
    simp only [BitVec.reduceToNat]
    omega
  rw [hsub]
  exact key ⟨amount.toNat % 64, Nat.mod_lt _ (by decide)⟩

theorem rotateRight_mod_eq {w r s : Nat} (x : BitVec w) (h : r % w = s % w) :
    x.rotateRight r = x.rotateRight s := by
  rw [← BitVec.rotateRight_mod_eq_rotateRight, h, BitVec.rotateRight_mod_eq_rotateRight]

/-- The amount a shift by an immediate takes from it. -/
theorem shamt_and (shamt : U32) :
    (shamt.setWidth 64 &&& (0x1f : U64)).toNat = shamt.toNat % 32 := by
  rw [BitVec.toNat_and, BitVec.toNat_setWidth, Nat.mod_eq_of_lt (by omega)]
  exact Nat.and_two_pow_sub_one_eq_mod _ 5

theorem shamt_and_and (shamt : U32) :
    ((shamt &&& 0x1f).setWidth 64 &&& (0x1f : U64)).toNat = shamt.toNat % 32 := by
  have h : (shamt &&& 0x1f).toNat = shamt.toNat % 32 := by
    rw [BitVec.toNat_and]
    exact Nat.and_two_pow_sub_one_eq_mod _ 5
  rw [shamt_and, h, Nat.mod_mod]

theorem getLsbD_rotate {w i : Nat} (x : BitVec w) (r : Nat) (hi : i < w) :
    (x.rotateRight r).getLsbD i = x.getLsbD ((i + r) % w) := by
  have hr : r % w < w := Nat.mod_lt r (by omega)
  have hmod : (i + r) % w = (i + r % w) % w := by rw [Nat.add_mod, Nat.mod_eq_of_lt hi]
  rw [BitVec.getLsbD_rotateRight, hmod]
  by_cases hlt : i < w - r % w
  · have h : (i + r % w) % w = r % w + i := by
      rw [Nat.mod_eq_of_lt (by omega), Nat.add_comm]
    rw [decide_eq_true hlt, cond_true, h]
  · have h : (i + r % w) % w = i - (w - r % w) := by
      rw [Nat.mod_eq_sub_mod (by omega), Nat.mod_eq_of_lt (by omega)]
      omega
    rw [decide_eq_false hlt, cond_false, decide_eq_true hi, Bool.true_and, h]

theorem rotateRight_zero {w : Nat} (x : BitVec w) : x.rotateRight 0 = x := by
  ext i hi
  rw [← BitVec.getLsbD_eq_getElem hi, getLsbD_rotate x 0 hi, Nat.add_zero, Nat.mod_eq_of_lt hi,
    BitVec.getLsbD_eq_getElem hi]

theorem lowWord_of_agree {xlen : Xlen} {a x : U64} (h : xlen.Agree a x) :
    lowWord a = lowWord x := by
  cases xlen with
  | Bit32 => exact h
  | Bit64 => exact congrArg lowWord h

theorem lowWord_shift (w : U32) (s : Nat) : lowWord ((w.setWidth 64 : U64) >>> s) = w >>> s := by
  refine BitVec.eq_of_toNat_eq ?_
  have hw := w.isLt
  have hle : w.toNat >>> s ≤ w.toNat := Nat.shiftRight_le _ _
  simp only [lowWord, BitVec.toNat_setWidth, BitVec.toNat_ushiftRight]
  rw [Nat.mod_eq_of_lt (by omega : w.toNat < 2 ^ 64)]
  exact Nat.mod_eq_of_lt (by omega)

/-! ## The helpers -/

/-- A helper, with the immediate it is given. -/
inductive Helper where
  | add | xor | and
  | srli (shamt : U32)
  | rotri32 (shamt : U32)
  | rotri (imm : U64)
  | rotr64 (amount : U32)
  | rotl64 (amount : U32)
  deriving DecidableEq

namespace Helper

/-- The call of a helper; a shift or a rotation has no second operand. -/
def call (h : Helper) (asm : InstrAssembler) (rs1 rs2 : Value) (rd : Nat) :
    Option (Value × InstrAssembler) :=
  match h with
  | .add => asm.add rs1 rs2 rd
  | .xor => asm.xor rs1 rs2 rd
  | .and => asm.and rs1 rs2 rd
  | .srli shamt => asm.srli rs1 shamt rd
  | .rotri32 shamt => asm.rotri32 rs1 shamt rd
  | .rotri imm => asm.rotri rs1 imm rd
  | .rotr64 amount => asm.rotr64 rs1 amount rd
  | .rotl64 amount => asm.rotl64 rs1 amount rd

/-- A helper folds the constants `x` and `y` as it executes them: every call
on operands that are these constants, immediates or registers, denotes the
word that the call on the two immediates does. -/
def Sound (h : Helper) (xlen : Xlen) (x y : U64) : Prop :=
  ∀ (asm : InstrAssembler) (regs : Nat → U64) (v1 v2 : Value) (rd : Nat)
    (folded result : Value × InstrAssembler),
    asm.xlen = xlen → v1.Holds xlen regs x → v2.Holds xlen regs y →
    h.call asm (.imm x) (.imm y) rd = .some folded → h.call asm v1 v2 rd = .some result →
      ∃ a b, outcome asm regs folded = .some a ∧ outcome asm regs result = .some b ∧ xlen.Agree a b

/-- What the shift of a register computes. -/
def shifted (xlen : Xlen) (shamt : U32) (x : U64) : U64 :=
  match xlen with
  | .Bit32 => (lowWord x >>> (shamt.toNat % 32)).setWidth 64
  | .Bit64 => (lowWord x >>> (shamt.toNat % 32)).signExtend 64

/-- What the word rotation of a register computes. -/
def rotatedWord (xlen : Xlen) (shamt : U32) (x : U64) : U64 :=
  match xlen with
  | .Bit32 => ((lowWord x).rotateRight shamt.toNat).setWidth 64
  | .Bit64 => ((lowWord x).rotateRight (min (shamt.toNat % 64) 32)).setWidth 64

/-- What the rotation of a register computes. -/
def rotated (xlen : Xlen) (amount : Nat) (x : U64) : U64 :=
  match xlen with
  | .Bit32 => ((lowWord x).rotateRight amount).setWidth 64
  | .Bit64 => x.rotateRight amount

end Helper

section Unary

variable {asm : InstrAssembler} {regs : Nat → U64} {x : U64} {rd r : Nat}
  {result : Value × InstrAssembler}

theorem outcome_srli {shamt : U32} (hshamt : shamt ≠ 0) (hr : asm.xlen.Agree (regs r) x)
    (h : asm.srli (.reg r) shamt rd = .some result) :
    ∃ b, outcome asm regs result = .some b ∧ asm.xlen.Agree b (Helper.shifted asm.xlen shamt x) := by
  simp only [InstrAssembler.srli, if_neg hshamt] at h
  cases hx : asm.xlen with
  | Bit32 =>
    rw [hx] at h hr
    obtain ⟨asm', hemit, h⟩ := Option.bind_eq_some_iff.mp h
    obtain rfl := Option.some.inj h
    refine ⟨_, (outcome_emitted hemit).trans (by rw [hx]; rfl), ?_⟩
    refine agree_trans (agree_signExtend _) ?_
    have hand : regs r &&& 0xffffffff = (lowWord x).setWidth 64 := by
      rw [← lowWord_of_agree hr]
      exact eval_zeroExtendWord (regs r) 0
    show lowWord (wrappingShr (regs r &&& 0xffffffff) _) = lowWord (Helper.shifted .Bit32 shamt x)
    rw [wrappingShr, shamt_and, hand, Nat.mod_eq_of_lt (by omega), lowWord_shift]
    exact (lowWord_setWidth _).symm
  | Bit64 =>
    rw [hx] at h hr
    obtain ⟨asm', hemit, h⟩ := Option.bind_eq_some_iff.mp h
    obtain rfl := Option.some.inj h
    refine ⟨_, (outcome_emitted hemit).trans (by rw [hx]; rfl), ?_⟩
    refine congrArg (BitVec.signExtend 64) ?_
    rw [shamt_and_and, lowWord_of_agree hr]

theorem outcome_rotri32 {shamt : U32} (hshamt : ¬ (shamt = 0 ∨ shamt = 32))
    (hr : asm.xlen.Agree (regs r) x) (h : asm.rotri32 (.reg r) shamt rd = .some result) :
    ∃ b, outcome asm regs result = .some b ∧
      asm.xlen.Agree b (Helper.rotatedWord asm.xlen shamt x) := by
  simp only [InstrAssembler.rotri32, if_neg hshamt] at h
  have htz := trailingZeros_rotri32 shamt
  cases hx : asm.xlen with
  | Bit32 =>
    rw [hx] at h hr
    obtain ⟨asm', hemit, h⟩ := Option.bind_eq_some_iff.mp h
    obtain rfl := Option.some.inj h
    refine ⟨_, (outcome_emitted hemit).trans (by rw [hx]; rfl), ?_⟩
    refine agree_trans (agree_signExtend _) ?_
    show lowWord (((lowWord (regs r)).rotateRight _).signExtend 64) =
      lowWord (Helper.rotatedWord .Bit32 shamt x)
    rw [lowWord_signExtend, lowWord_of_agree hr, htz]
    refine (rotateRight_mod_eq _ ?_).trans (lowWord_setWidth _).symm
    split_ifs <;> omega
  | Bit64 =>
    rw [hx] at h hr
    obtain ⟨asm', hemit, h⟩ := Option.bind_eq_some_iff.mp h
    obtain rfl := Option.some.inj h
    refine ⟨_, (outcome_emitted hemit).trans (by rw [hx]; rfl), ?_⟩
    show ((lowWord (regs r)).rotateRight (min _ 32)).setWidth 64 =
      ((lowWord x).rotateRight (min (shamt.toNat % 64) 32)).setWidth 64
    rw [lowWord_of_agree hr, htz]
    refine congrArg _ (rotateRight_mod_eq _ ?_)
    split_ifs <;> omega

theorem outcome_rotri {imm : U64} (hr : asm.xlen.Agree (regs r) x)
    (h : asm.rotri (.reg r) imm rd = .some result) :
    ∃ b, outcome asm regs result = .some b ∧
      asm.xlen.Agree b (Helper.rotated asm.xlen (trailingZeros imm) x) := by
  obtain ⟨asm', hemit, h⟩ := Option.bind_eq_some_iff.mp h
  obtain rfl := Option.some.inj h
  cases hx : asm.xlen with
  | Bit32 =>
    rw [hx] at hr
    refine ⟨_, (outcome_emitted hemit).trans (by rw [hx]; rfl), ?_⟩
    refine agree_trans (agree_signExtend _) ?_
    show lowWord (((lowWord (regs r)).rotateRight _).signExtend 64) =
      lowWord (Helper.rotated .Bit32 (trailingZeros imm) x)
    rw [lowWord_signExtend, lowWord_of_agree hr]
    exact (lowWord_setWidth _).symm
  | Bit64 =>
    rw [hx] at hr
    refine ⟨_, (outcome_emitted hemit).trans (by rw [hx]; rfl), ?_⟩
    exact congrArg (BitVec.rotateRight · _) hr

theorem outcome_rotr64 {amount : U32} (hamount : ¬ (amount = 0 ∨ amount = 64))
    (hr : asm.xlen.Agree (regs r) x) (h : asm.rotr64 (.reg r) amount rd = .some result) :
    ∃ b, outcome asm regs result = .some b ∧
      asm.xlen.Agree b (Helper.rotated asm.xlen amount.toNat x) := by
  simp only [InstrAssembler.rotr64, if_neg hamount] at h
  obtain ⟨b, hb, hagree⟩ := outcome_rotri hr h
  refine ⟨b, hb, ?_⟩
  rw [trailingZeros_rotr64] at hagree
  cases hx : asm.xlen with
  | Bit32 =>
    rw [hx] at hagree
    refine Eq.trans hagree ?_
    refine congrArg (fun w : U32 => lowWord (w.setWidth 64)) (rotateRight_mod_eq _ ?_)
    split_ifs <;> omega
  | Bit64 =>
    rw [hx] at hagree
    refine Eq.trans hagree (rotateRight_mod_eq _ ?_)
    split_ifs <;> omega

end Unary

/-! ## Folded and computed values -/

namespace Helper

/-- The immediate a call on two immediates denotes. -/
def folded (h : Helper) (x y : U64) : U64 :=
  match h with
  | .add => x + y
  | .xor => x ^^^ y
  | .and => x &&& y
  | .srli shamt => if shamt = 0 then x else (lowWord x >>> (shamt.toNat % 32)).setWidth 64
  | .rotri32 shamt =>
    if shamt = 0 ∨ shamt = 32 then x else ((lowWord x).rotateRight shamt.toNat).setWidth 64
  | .rotri imm => ((lowWord x).rotateRight (trailingZeros imm)).setWidth 64
  | .rotr64 amount => x.rotateRight amount.toNat
  | .rotl64 amount => x.rotateRight (64 - amount).toNat

/-- The word a call on registers computes. -/
def computed (h : Helper) (xlen : Xlen) (x y : U64) : U64 :=
  match h with
  | .add => x + y
  | .xor => x ^^^ y
  | .and => x &&& y
  | .srli shamt => if shamt = 0 then x else shifted xlen shamt x
  | .rotri32 shamt => if shamt = 0 ∨ shamt = 32 then x else rotatedWord xlen shamt x
  | .rotri imm => rotated xlen (trailingZeros imm) x
  | .rotr64 amount => if amount = 0 ∨ amount = 64 then x else rotated xlen amount.toNat x
  | .rotl64 amount =>
    if 64 - amount = 0 ∨ 64 - amount = 64 then x else rotated xlen (64 - amount).toNat x

variable {h : Helper} {asm : InstrAssembler} {regs : Nat → U64} {v1 v2 : Value} {x y : U64} {rd : Nat}
  {result : Value × InstrAssembler}

theorem rotr64_folded (x : U64) (amount : U32) (rd : Nat) :
    asm.rotr64 (.imm x) amount rd = .some (.imm (x.rotateRight amount.toNat), asm) := by
  unfold InstrAssembler.rotr64
  split_ifs with hamount
  · have hx : x.rotateRight amount.toNat = x := by
      rw [rotateRight_mod_eq x (s := 0) (by rcases hamount with rfl | rfl <;> rfl)]
      exact rotateRight_zero x
    rw [hx]
    simp [InstrAssembler.xor, InstrAssembler.bin]
  · rfl

theorem call_folded : h.call asm (.imm x) (.imm y) rd = .some (.imm (h.folded x y), asm) := by
  cases h with
  | add => rfl
  | xor => rfl
  | and => rfl
  | srli shamt =>
    simp only [call, folded, InstrAssembler.srli]
    split_ifs <;> simp [InstrAssembler.xor, InstrAssembler.bin]
  | rotri32 shamt =>
    simp only [call, folded, InstrAssembler.rotri32]
    split_ifs <;> simp [InstrAssembler.xor, InstrAssembler.bin]
  | rotri imm => rfl
  | rotr64 amount => exact rotr64_folded x amount rd
  | rotl64 amount => exact rotr64_folded x (64 - amount) rd

/-- A rotation of a doubleword register. -/
theorem outcome_rotr64_reg {amount : U32} {r : Nat} (hr : asm.xlen.Agree (regs r) x)
    (hcall : asm.rotr64 (.reg r) amount rd = .some result) :
    ∃ b, outcome asm regs result = .some b ∧ asm.xlen.Agree b
      (if amount = 0 ∨ amount = 64 then x else rotated asm.xlen amount.toNat x) := by
  split_ifs with hamount
  · rw [InstrAssembler.rotr64, if_pos hamount] at hcall
    exact outcome_copy (show (Value.reg r).Holds asm.xlen regs x from hr) hcall
  · exact outcome_rotr64 hamount hr hcall

/-- A call on a register computes the same word from every register that
holds the constant. -/
theorem outcome_reg {r : Nat} (hr : asm.xlen.Agree (regs r) x) (h2 : v2.Holds asm.xlen regs y)
    (hcall : h.call asm (.reg r) v2 rd = .some result) :
    ∃ b, outcome asm regs result = .some b ∧ asm.xlen.Agree b (h.computed asm.xlen x y) := by
  have h1 : (Value.reg r).Holds asm.xlen regs x := hr
  cases h with
  | add => exact outcome_bin folds_add h1 h2 hcall
  | xor => exact outcome_bin folds_xor h1 h2 hcall
  | and => exact outcome_bin folds_and h1 h2 hcall
  | srli shamt =>
    simp only [call, computed] at hcall ⊢
    split_ifs with hshamt
    · rw [InstrAssembler.srli, if_pos hshamt] at hcall
      exact outcome_copy h1 hcall
    · exact outcome_srli hshamt hr hcall
  | rotri32 shamt =>
    simp only [call, computed] at hcall ⊢
    split_ifs with hshamt
    · rw [InstrAssembler.rotri32, if_pos hshamt] at hcall
      exact outcome_copy h1 hcall
    · exact outcome_rotri32 hshamt hr hcall
  | rotri imm => exact outcome_rotri hr hcall
  | rotr64 amount => exact outcome_rotr64_reg hr hcall
  | rotl64 amount => exact outcome_rotr64_reg hr hcall

/-- A call denotes what it computes, or is folded. -/
theorem outcome_call (h1 : v1.Holds asm.xlen regs x) (h2 : v2.Holds asm.xlen regs y)
    (hcall : h.call asm v1 v2 rd = .some result) :
    ∃ b, outcome asm regs result = .some b ∧
      (asm.xlen.Agree b (h.computed asm.xlen x y) ∨ b = h.folded x y) := by
  cases v1 with
  | reg r =>
    obtain ⟨b, hb, hagree⟩ := outcome_reg (show asm.xlen.Agree (regs r) x from h1) h2 hcall
    exact ⟨b, hb, .inl hagree⟩
  | imm i =>
    obtain rfl : i = x := h1
    -- Without a second operand the call is the folded one.
    have hfold : ∀ z, h.call asm (.imm i) (.imm z) rd = h.call asm (.imm i) v2 rd →
        h.folded i z = h.folded i y →
        ∃ b, outcome asm regs result = .some b ∧
          (asm.xlen.Agree b (h.computed asm.xlen i y) ∨ b = h.folded i y) := by
      intro z hz hy
      rw [← hz, call_folded] at hcall
      obtain rfl := Option.some.inj hcall
      exact ⟨_, outcome_imm _, .inr hy⟩
    cases h with
    | add =>
      obtain ⟨b, hb, hagree⟩ := outcome_bin folds_add (show (Value.imm i).Holds asm.xlen regs i from rfl) h2 hcall
      exact ⟨b, hb, .inl hagree⟩
    | xor =>
      obtain ⟨b, hb, hagree⟩ := outcome_bin folds_xor (show (Value.imm i).Holds asm.xlen regs i from rfl) h2 hcall
      exact ⟨b, hb, .inl hagree⟩
    | and =>
      obtain ⟨b, hb, hagree⟩ := outcome_bin folds_and (show (Value.imm i).Holds asm.xlen regs i from rfl) h2 hcall
      exact ⟨b, hb, .inl hagree⟩
    | srli shamt => exact hfold y rfl rfl
    | rotri32 shamt => exact hfold y rfl rfl
    | rotri imm => exact hfold y rfl rfl
    | rotr64 amount => exact hfold y rfl rfl
    | rotl64 amount => exact hfold y rfl rfl

/-- Outside the inlines every destination is accepted. -/
theorem call_reg_some {r1 r2 : Nat} (hfree : asm.hasInlineInstrFormat = false) :
    ∃ result, h.call asm (.reg r1) (.reg r2) rd = .some result := by
  rw [← Option.isSome_iff_exists]
  cases h <;>
    simp only [call, InstrAssembler.add, InstrAssembler.xor, InstrAssembler.and, InstrAssembler.srli,
      InstrAssembler.rotri32, InstrAssembler.rotri, InstrAssembler.rotr64, InstrAssembler.rotl64,
      InstrAssembler.bin, InstrAssembler.emitR, InstrAssembler.emitI, InstrAssembler.emitVshiftI,
      addToSequence_free hfree] <;>
    (try split_ifs) <;> (try cases asm.xlen) <;> rfl

/-- A helper is sound when the word it folds to is the one it computes. -/
theorem sound_iff_agree {xlen : Xlen} :
    h.Sound xlen x y ↔ xlen.Agree (h.folded x y) (h.computed xlen x y) := by
  constructor
  · intro hsound
    let asm : InstrAssembler := ⟨xlen, [], false⟩
    let regs : Nat → U64 := fun r => if r = 1 then x else y
    have h1 : asm.xlen.Agree (regs 1) x := agree_refl x
    have h2 : (Value.reg 2).Holds asm.xlen regs y := agree_refl y
    obtain ⟨result, hcall⟩ := @call_reg_some h asm 3 1 2 rfl
    obtain ⟨a, b, ha, hb, hab⟩ :=
      hsound asm regs (.reg 1) (.reg 2) 3 _ result rfl h1 h2 call_folded hcall
    obtain ⟨c, hc, hcomp⟩ := outcome_reg h1 h2 hcall
    rw [outcome_imm] at ha
    rw [hb] at hc
    cases ha
    cases hc
    exact agree_trans hab hcomp
  · rintro hagree asm regs v1 v2 rd folded result rfl h1 h2 hfold hcall
    rw [call_folded] at hfold
    obtain rfl := Option.some.inj hfold
    obtain ⟨b, hb, hcases⟩ := outcome_call h1 h2 hcall
    refine ⟨_, b, outcome_imm _, hb, ?_⟩
    rcases hcases with hcomp | rfl
    · exact agree_trans hagree (agree_symm hcomp)
    · exact agree_refl _

end Helper

/-! ## Bits of a constant -/

section Bits

variable {x : U64}

theorem toNat_lt_iff {b : Nat} : x.toNat < 2 ^ b ↔ ∀ i, b ≤ i → x.getLsbD i = false := by
  constructor
  · intro h i hi
    exact Nat.testBit_lt_two_pow (h.trans_le (Nat.pow_le_pow_right (by decide) hi))
  · intro h
    refine Nat.lt_pow_two_of_testBit _ fun i hi => ?_
    exact h i hi

theorem toNat_mod_iff {a : Nat} : x.toNat % 2 ^ a = 0 ↔ ∀ i < a, x.getLsbD i = false := by
  constructor
  · intro h i hi
    have hbit := Nat.testBit_mod_two_pow x.toNat a i
    rw [h, Nat.zero_testBit, decide_eq_true hi, Bool.true_and] at hbit
    exact hbit.symm
  · intro h
    refine Nat.eq_of_testBit_eq fun i => ?_
    rw [Nat.testBit_mod_two_pow, Nat.zero_testBit]
    by_cases hi : i < a
    · rw [show x.toNat.testBit i = false from h i hi, Bool.and_false]
    · rw [decide_eq_false hi, Bool.false_and]

/-- A word and its rotation, extended with zeros. -/
theorem getLsbD_rotatedWord (x : U64) (n i : Nat) :
    (((lowWord x).rotateRight n).setWidth 64 : U64).getLsbD i =
      (decide (i < 32) && x.getLsbD ((i + n) % 32)) := by
  rw [BitVec.getLsbD_setWidth]
  by_cases hi : i < 32
  · rw [getLsbD_rotate _ _ hi, lowWord, BitVec.getLsbD_setWidth]
    simp [hi, show i < 64 by omega, Nat.mod_lt]
  · rw [BitVec.getLsbD_of_ge _ _ (by omega)]
    simp [hi]

end Bits

/-! ## When a fold is right -/

namespace Helper

/-- The halves of a constant agree where a rotation by `amount` of the
doubleword takes bits of the high half for those of the low half. -/
def HalvesAgree (amount : Nat) (x : U64) : Prop :=
  if amount ≤ 32 then x.toNat / 2 ^ 32 % 2 ^ amount = x.toNat % 2 ^ amount
  else x.toNat / 2 ^ amount = x.toNat % 2 ^ 32 / 2 ^ (amount - 32)

/-- The constants a helper folds as it executes them. At 64 bits: a shift that
leaves the sign of the word clear, a word rotation by at most the word or of a
word it leaves alone, and a rotation that moves no bit between the word and
the high half; at 32 bits, a doubleword rotation of halves that agree. -/
def Exact (h : Helper) (xlen : Xlen) (x : U64) : Prop :=
  match h, xlen with
  | .srli shamt, .Bit64 => shamt = 0 ∨ shamt.toNat % 32 ≠ 0 ∨ x.getLsbD 31 = false
  | .rotri32 shamt, .Bit64 =>
    shamt.toNat % 64 ≤ 32 ∨ ∀ i < 32, x.getLsbD i = x.getLsbD ((i + shamt.toNat) % 32)
  | .rotri imm, .Bit64 =>
    let amount := trailingZeros imm % 64
    if amount ≤ 32 then x.toNat < 2 ^ 32 ∧ x.toNat % 2 ^ amount = 0 else x.toNat < 2 ^ (amount - 32)
  | .rotr64 amount, .Bit32 => HalvesAgree (amount.toNat % 64) x
  | .rotl64 amount, .Bit32 => HalvesAgree ((64 - amount).toNat % 64) x
  | _, _ => True

/-- A shifted word is its own sign extension unless it keeps the sign. -/
theorem shifted_iff (w : U32) (s : Nat) :
    ((w >>> (s % 32)).setWidth 64 : U64) = (w >>> (s % 32)).signExtend 64 ↔
      s % 32 ≠ 0 ∨ w.getLsbD 31 = false := by
  have hmsb : (w >>> (s % 32)).msb = false ↔ s % 32 ≠ 0 ∨ w.getLsbD 31 = false := by
    rw [BitVec.msb_eq_getLsbD_last, BitVec.getLsbD_ushiftRight]
    by_cases hs : s % 32 = 0
    · simp [hs]
    · rw [BitVec.getLsbD_of_ge w _ (by omega)]
      simp [hs]
  rw [← hmsb]
  constructor
  · intro h
    have hbit := congrArg (BitVec.getLsbD · 32) h
    simp only [BitVec.getLsbD_setWidth, BitVec.getLsbD_signExtend] at hbit
    simpa using hbit.symm
  · intro h
    exact (BitVec.signExtend_eq_setWidth_of_msb_false h).symm

/-- A word rotation of more than the word is folded modulo the word. -/
theorem rotatedWord_iff (x : U64) (n : Nat) :
    (((lowWord x).rotateRight n).setWidth 64 : U64) =
        ((lowWord x).rotateRight (min (n % 64) 32)).setWidth 64 ↔
      n % 64 ≤ 32 ∨ ∀ i < 32, x.getLsbD i = x.getLsbD ((i + n) % 32) := by
  by_cases hn : n % 64 ≤ 32
  · simp only [hn, true_or, iff_true]
    exact congrArg _ (rotateRight_mod_eq _ (by omega))
  · have hmin : min (n % 64) 32 = 32 := by omega
    simp only [hn, false_or, hmin]
    constructor
    · intro h i hi
      have hbit := congrArg (BitVec.getLsbD · i) h
      simp only [getLsbD_rotatedWord, decide_eq_true hi, Bool.true_and] at hbit
      rw [hbit]
      congr 1
      omega
    · intro h
      refine BitVec.eq_of_getLsbD_eq fun i hi => ?_
      rw [getLsbD_rotatedWord, getLsbD_rotatedWord]
      by_cases hlt : i < 32
      · rw [← h i hlt]
        congr 2
        omega
      · rw [decide_eq_false hlt, Bool.false_and, Bool.false_and]

/-- Bit by bit, a rotation folded at the word against that of the doubleword. -/
theorem rotated_iff_bits (x : U64) (n : Nat) :
    (((lowWord x).rotateRight n).setWidth 64 : U64) = x.rotateRight n ↔
      ∀ i < 64, (decide (i < 32) && x.getLsbD ((i + n) % 32)) = x.getLsbD ((i + n) % 64) := by
  constructor
  · intro h i hi
    rw [← getLsbD_rotatedWord, h, getLsbD_rotate x n hi]
  · intro h
    refine BitVec.eq_of_getLsbD_eq fun i hi => ?_
    rw [getLsbD_rotatedWord, h i hi, getLsbD_rotate x n hi]

section Moved

variable {x : U64} {n : Nat}
  (h : ∀ i < 64, (decide (i < 32) && x.getLsbD ((i + n) % 32)) = x.getLsbD ((i + n) % 64))

include h

/-- The bits that reach the high half are clear. -/
theorem clear_of_high {j : Nat} (hj : j < 64) (hhigh : 32 ≤ (j + 64 - n % 64) % 64) :
    x.getLsbD j = false := by
  have hbit := h ((j + 64 - n % 64) % 64) (Nat.mod_lt _ (by decide))
  rw [decide_eq_false (by omega), Bool.false_and] at hbit
  rw [show ((j + 64 - n % 64) % 64 + n) % 64 = j by omega] at hbit
  exact hbit.symm

/-- A bit of the high half that reaches the word is the bit of the word that
the fold moves to its place. -/
theorem bit_of_low {j : Nat} (hj : j < 64) (hword : 32 ≤ j) (hlow : (j + 64 - n % 64) % 64 < 32) :
    x.getLsbD j = x.getLsbD (j - 32) := by
  have hbit := h ((j + 64 - n % 64) % 64) (Nat.mod_lt _ (by decide))
  rw [decide_eq_true hlow, Bool.true_and, show ((j + 64 - n % 64) % 64 + n) % 64 = j by omega,
    show ((j + 64 - n % 64) % 64 + n) % 32 = j - 32 by omega] at hbit
  exact hbit.symm

end Moved

/-- A rotation folded at the word is that of the doubleword when no bit moves
between the two. -/
theorem rotated_iff (x : U64) (n : Nat) :
    (((lowWord x).rotateRight n).setWidth 64 : U64) = x.rotateRight n ↔
      if n % 64 ≤ 32 then x.toNat < 2 ^ 32 ∧ x.toNat % 2 ^ (n % 64) = 0
      else x.toNat < 2 ^ (n % 64 - 32) := by
  rw [rotated_iff_bits]
  split_ifs with hn
  · rw [toNat_lt_iff, toNat_mod_iff]
    constructor
    · intro h
      have hlow : ∀ i < n % 64, x.getLsbD i = false := fun i hi => clear_of_high h (by omega) (by omega)
      refine ⟨fun i hi => ?_, hlow⟩
      by_cases hi64 : i < 64
      · by_cases hhigh : 32 ≤ (i + 64 - n % 64) % 64
        · exact clear_of_high h hi64 hhigh
        · rw [bit_of_low h hi64 hi (by omega)]
          exact hlow _ (by omega)
      · exact BitVec.getLsbD_of_ge x i (by omega)
    · rintro ⟨hhigh, hlow⟩ i hi
      by_cases hi32 : i < 32
      · rw [decide_eq_true hi32, Bool.true_and]
        by_cases hin : i + n % 64 < 32
        · congr 1
          omega
        · rw [hhigh ((i + n) % 64) (by omega), hlow ((i + n) % 32) (by omega)]
      · rw [decide_eq_false hi32, Bool.false_and]
        by_cases hin : i + n % 64 < 64
        · exact (hhigh _ (by omega)).symm
        · exact (hlow _ (by omega)).symm
  · rw [toNat_lt_iff]
    constructor
    · intro h i hi
      by_cases hi64 : i < 64
      · by_cases hhigh : 32 ≤ (i + 64 - n % 64) % 64
        · exact clear_of_high h hi64 hhigh
        · rw [bit_of_low h hi64 (by omega) (by omega)]
          exact clear_of_high h (by omega) (by omega)
      · exact BitVec.getLsbD_of_ge x i (by omega)
    · intro hhigh i hi
      by_cases hi32 : i < 32
      · rw [decide_eq_true hi32, Bool.true_and]
        by_cases hin : i + n % 64 < 64
        · rw [hhigh ((i + n) % 64) (by omega), hhigh ((i + n) % 32) (by omega)]
        · congr 1
          omega
      · rw [decide_eq_false hi32, Bool.false_and]
        exact (hhigh _ (by omega)).symm

/-- The word of a doubleword rotation is the rotation of the word when the
halves agree. -/
theorem halvesAgree_iff (x : U64) (n : Nat) :
    lowWord (x.rotateRight n) = (lowWord x).rotateRight n ↔ HalvesAgree (n % 64) x := by
  have hbits : lowWord (x.rotateRight n) = (lowWord x).rotateRight n ↔
      ∀ i < 32, x.toNat.testBit ((i + n) % 64) = x.toNat.testBit ((i + n) % 32) := by
    have hbit : ∀ i < 32, (lowWord (x.rotateRight n)).getLsbD i = x.toNat.testBit ((i + n) % 64) ∧
        ((lowWord x).rotateRight n).getLsbD i = x.toNat.testBit ((i + n) % 32) := by
      intro i hi
      constructor
      · rw [lowWord, BitVec.getLsbD_setWidth, getLsbD_rotate x n (by omega), decide_eq_true hi,
          Bool.true_and]
        rfl
      · rw [getLsbD_rotate _ n hi, lowWord, BitVec.getLsbD_setWidth,
          decide_eq_true (Nat.mod_lt _ (by decide)), Bool.true_and]
        rfl
    constructor
    · intro h i hi
      rw [← (hbit i hi).1, h, (hbit i hi).2]
    · intro h
      refine BitVec.eq_of_getLsbD_eq fun i hi => ?_
      rw [(hbit i hi).1, h i hi, (hbit i hi).2]
  rw [hbits, HalvesAgree]
  split_ifs with hn
  · constructor
    · intro h
      refine Nat.eq_of_testBit_eq fun i => ?_
      rw [Nat.testBit_mod_two_pow, Nat.testBit_mod_two_pow, Nat.testBit_div_two_pow]
      by_cases hi : i < n % 64
      · have hbit := h (i + 32 - n % 64) (by omega)
        rw [show (i + 32 - n % 64 + n) % 64 = 32 + i by omega,
          show (i + 32 - n % 64 + n) % 32 = i by omega] at hbit
        rw [show i + 32 = 32 + i by omega, hbit]
      · rw [decide_eq_false hi, Bool.false_and, Bool.false_and]
    · intro h i hi
      by_cases hin : i + n % 64 < 32
      · congr 1
        omega
      · have hbit := congrArg (Nat.testBit · (i + n % 64 - 32)) h
        simp only [Nat.testBit_mod_two_pow, Nat.testBit_div_two_pow] at hbit
        rw [decide_eq_true (by omega), Bool.true_and, Bool.true_and] at hbit
        rw [show (i + n) % 64 = i + n % 64 - 32 + 32 by omega,
          show (i + n) % 32 = i + n % 64 - 32 by omega, hbit]
  · constructor
    · intro h
      refine Nat.eq_of_testBit_eq fun i => ?_
      rw [Nat.testBit_div_two_pow, Nat.testBit_div_two_pow, Nat.testBit_mod_two_pow]
      by_cases hi : i + n % 64 < 64
      · have hbit := h i (by omega)
        rw [show (i + n) % 64 = i + n % 64 by omega,
          show (i + n) % 32 = i + (n % 64 - 32) by omega] at hbit
        rw [hbit, decide_eq_true (by omega), Bool.true_and]
      · rw [decide_eq_false (by omega), Bool.false_and]
        exact BitVec.getLsbD_of_ge x _ (by omega)
    · intro h i hi
      by_cases hin : i + n % 64 < 64
      · have hbit := congrArg (Nat.testBit · i) h
        simp only [Nat.testBit_div_two_pow, Nat.testBit_mod_two_pow] at hbit
        rw [decide_eq_true (by omega), Bool.true_and] at hbit
        rw [show (i + n) % 64 = i + n % 64 by omega,
          show (i + n) % 32 = i + (n % 64 - 32) by omega, hbit]
      · congr 1
        omega

theorem agree_rotr64_iff {xlen : Xlen} (x : U64) (amount : U32) :
    xlen.Agree (x.rotateRight amount.toNat)
        (if amount = 0 ∨ amount = 64 then x else rotated xlen amount.toNat x) ↔
      (Helper.rotr64 amount).Exact xlen x := by
  cases xlen with
  | Bit32 =>
    simp only [Exact]
    split_ifs with hamount
    · have hzero : amount.toNat % 64 = 0 := by rcases hamount with rfl | rfl <;> rfl
      rw [rotateRight_mod_eq x (s := 0) (by omega), rotateRight_zero, hzero]
      refine iff_of_true (agree_refl x) ?_
      simp [HalvesAgree, Nat.mod_one]
    · rw [← halvesAgree_iff]
      refine Eq.congr_right ?_
      exact lowWord_setWidth _
  | Bit64 =>
    simp only [Exact, iff_true]
    split_ifs with hamount
    · have hzero : amount.toNat % 64 = 0 := by rcases hamount with rfl | rfl <;> rfl
      rw [rotateRight_mod_eq x (s := 0) (by omega), rotateRight_zero]
      exact agree_refl x
    · exact agree_refl _

theorem agree_iff {h : Helper} {xlen : Xlen} {x y : U64} :
    xlen.Agree (h.folded x y) (h.computed xlen x y) ↔ h.Exact xlen x := by
  cases h with
  | add => exact iff_of_true (agree_refl _) (by cases xlen <;> trivial)
  | xor => exact iff_of_true (agree_refl _) (by cases xlen <;> trivial)
  | and => exact iff_of_true (agree_refl _) (by cases xlen <;> trivial)
  | srli shamt =>
    simp only [folded, computed]
    cases xlen with
    | Bit32 =>
      refine iff_of_true ?_ trivial
      split_ifs <;> exact agree_refl _
    | Bit64 =>
      have hbit : (lowWord x).getLsbD 31 = x.getLsbD 31 := by
        rw [lowWord, BitVec.getLsbD_setWidth]
        rfl
      simp only [Exact]
      split_ifs with hshamt
      · exact iff_of_true (agree_refl _) (.inl hshamt)
      · rw [← hbit]
        simp only [hshamt, false_or]
        exact shifted_iff (lowWord x) shamt.toNat
  | rotri32 shamt =>
    simp only [folded, computed]
    cases xlen with
    | Bit32 =>
      refine iff_of_true ?_ trivial
      split_ifs <;> exact agree_refl _
    | Bit64 =>
      simp only [Exact]
      split_ifs with hshamt
      · refine iff_of_true (agree_refl _) (.inl ?_)
        rcases hshamt with rfl | rfl <;> decide
      · exact rotatedWord_iff x shamt.toNat
  | rotri imm =>
    cases xlen with
    | Bit32 => exact iff_of_true (agree_refl _) trivial
    | Bit64 => exact rotated_iff x (trailingZeros imm)
  | rotr64 amount => exact agree_rotr64_iff x amount
  | rotl64 amount =>
    refine (agree_rotr64_iff x (64 - amount)).trans ?_
    cases xlen <;> rfl

/-- **When folding is sound**: a helper called on constants denotes, whichever
of its operands are registers, the word it folds the two immediates to, exactly
when the constant is one the fold is right about. -/
theorem sound_iff (h : Helper) (xlen : Xlen) (x y : U64) : h.Sound xlen x y ↔ h.Exact xlen x :=
  sound_iff_agree.trans agree_iff

/-- A doubleword rotation of `1` by one bit is folded as one of its word. -/
theorem rotri_folded_short : ¬ (Helper.rotri 0xfffffffffffffffe).Sound .Bit64 1 0 := by
  intro hsound
  have hagree := sound_iff_agree.mp hsound
  revert hagree
  decide

end Helper

end InlineAssembler

end LightningJolt
