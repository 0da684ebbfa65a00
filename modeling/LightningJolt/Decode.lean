/-
Decoding (`Instruction::decode` and `uncompress_instruction` in
`tracer/src/instruction/mod.rs`). `None` is a decoding error, which the
emulator panics on.
-/
import LightningJolt.Trace

namespace LightningJolt

/-! ## Fields -/

/-- `(word >> lo) & mask`. -/
def field (word : U32) (lo : Nat) (mask : U32) : Nat := ((word >>> lo) &&& mask).toNat

def fieldRd (word : U32) : Nat := field word 7 0x1f
def fieldRs1 (word : U32) : Nat := field word 15 0x1f
def fieldRs2 (word : U32) : Nat := field word 20 0x1f

/-- The bits that `match word & 0x80000000` puts above an immediate's sign. -/
def signBits (word bits : U32) : U32 := if word &&& 0x80000000 = 0x80000000 then bits else 0

/-- The immediate of `FormatI` and `FormatLoad`. -/
def immI (word : U32) : U64 :=
  (signBits word 0xfffff800 ||| ((word >>> 20) &&& 0x000007ff)).signExtend 64

def FormatR.parse (word : U32) : FormatR := ⟨fieldRd word, fieldRs1 word, fieldRs2 word⟩

def FormatI.parse (word : U32) : FormatI := ⟨fieldRd word, fieldRs1 word, immI word⟩

def FormatLoad.parse (word : U32) : FormatLoad := ⟨fieldRd word, fieldRs1 word, immI word⟩

def FormatS.parse (word : U32) : FormatS where
  rs1 := fieldRs1 word
  rs2 := fieldRs2 word
  imm := (signBits word 0xfffff000 ||| ((word >>> 20) &&& 0xfe0) |||
    ((word >>> 7) &&& 0x1f)).signExtend 64

def FormatB.parse (word : U32) : FormatB where
  rs1 := fieldRs1 word
  rs2 := fieldRs2 word
  imm := (signBits word 0xfffff000 ||| ((word <<< 4) &&& 0x00000800) |||
    ((word >>> 20) &&& 0x000007e0) ||| ((word >>> 7) &&& 0x0000001e)).toInt

def FormatJ.parse (word : U32) : FormatJ where
  rd := fieldRd word
  imm := (signBits word 0xfff00000 ||| (word &&& 0x000ff000) ||| ((word &&& 0x00100000) >>> 9) |||
    ((word &&& 0x7fe00000) >>> 20)).signExtend 64

def FormatU.parse (word : U32) : FormatU where
  rd := fieldRd word
  imm := signExtendWord ((if word &&& 0x80000000 = 0x80000000 then 0xffffffff00000000 else 0) |||
    (word.setWidth 64 &&& 0xfffff000))

def FormatAdviceLoadI.parse (word : U32) : FormatAdviceLoadI := ⟨fieldRd word, word.signExtend 64⟩

def FormatInline.parse (word : U32) : FormatInline :=
  ⟨fieldRs1 word, fieldRs2 word, fieldRd word⟩

/-! ## Opcodes -/

def decodeBranch (funct3 : Nat) : Option BranchOp :=
  match funct3 with
  | 0b000 => .some .BEQ
  | 0b001 => .some .BNE
  | 0b100 => .some .BLT
  | 0b101 => .some .BGE
  | 0b110 => .some .BLTU
  | 0b111 => .some .BGEU
  | _ => .none

def decodeLoad (funct3 : Nat) (o : FormatLoad) : Option Op :=
  match funct3 with
  | 0b000 => .some (.seq (.load .LB o))
  | 0b001 => .some (.seq (.load .LH o))
  | 0b010 => .some (.seq (.load .LW o))
  | 0b011 => .some (.basic (.LD o))
  | 0b100 => .some (.seq (.load .LBU o))
  | 0b101 => .some (.seq (.load .LHU o))
  | 0b110 => .some (.seq (.load .LWU o))
  | _ => .none

def decodeStore (funct3 : Nat) (o : FormatS) : Option Op :=
  match funct3 with
  | 0b000 => .some (.seq (.store .SB o))
  | 0b001 => .some (.seq (.store .SH o))
  | 0b010 => .some (.seq (.store .SW o))
  | 0b011 => .some (.basic (.SD o))
  | _ => .none

/-- Opcode 0010011, where the shifts need their `funct6`. -/
def decodeArithI (funct3 funct6 : Nat) (o : FormatI) : Option Op :=
  match funct3, funct6 with
  | 0b001, 0 => .some (.seq (.i .SLLI o))
  | 0b001, _ => .none
  | 0b101, 0b000000 => .some (.seq (.i .SRLI o))
  | 0b101, 0b010000 => .some (.seq (.i .SRAI o))
  | 0b101, _ => .none
  | 0b000, _ => .some (.basic (.i .ADDI o))
  | 0b010, _ => .some (.basic (.i .SLTI o))
  | 0b011, _ => .some (.basic (.i .SLTIU o))
  | 0b100, _ => .some (.basic (.i .XORI o))
  | 0b110, _ => .some (.basic (.i .ORI o))
  | 0b111, _ => .some (.basic (.i .ANDI o))
  | _, _ => .none

def decodeArithIW (funct3 funct7 : Nat) : Option SeqIOp :=
  match funct3, funct7 with
  | 0b000, _ => .some .ADDIW
  | 0b001, 0b0000000 => .some .SLLIW
  | 0b101, 0b0000000 => .some .SRLIW
  | 0b101, 0b0100000 => .some .SRAIW
  | _, _ => .none

def decodeArithR (funct3 funct7 : Nat) (o : FormatR) : Option Op :=
  match funct3, funct7 with
  | 0b000, 0b0000000 => .some (.basic (.r .ADD o))
  | 0b000, 0b0100000 => .some (.basic (.r .SUB o))
  | 0b001, 0b0000000 => .some (.seq (.r .SLL o))
  | 0b010, 0b0000000 => .some (.basic (.r .SLT o))
  | 0b011, 0b0000000 => .some (.basic (.r .SLTU o))
  | 0b100, 0b0000000 => .some (.basic (.r .XOR o))
  | 0b101, 0b0000000 => .some (.seq (.r .SRL o))
  | 0b101, 0b0100000 => .some (.seq (.r .SRA o))
  | 0b110, 0b0000000 => .some (.basic (.r .OR o))
  | 0b111, 0b0000000 => .some (.basic (.r .AND o))
  | 0b000, 0b0000001 => .some (.basic (.r .MUL o))
  | 0b001, 0b0000001 => .some (.seq (.r .MULH o))
  | 0b010, 0b0000001 => .some (.seq (.r .MULHSU o))
  | 0b011, 0b0000001 => .some (.basic (.r .MULHU o))
  | 0b100, 0b0000001 => .some (.seq (.r .DIV o))
  | 0b101, 0b0000001 => .some (.seq (.r .DIVU o))
  | 0b110, 0b0000001 => .some (.seq (.r .REM o))
  | 0b111, 0b0000001 => .some (.seq (.r .REMU o))
  | _, _ => .none

def decodeArithRW (funct3 funct7 : Nat) : Option SeqROp :=
  match funct3, funct7 with
  | 0b000, 0b0000000 => .some .ADDW
  | 0b000, 0b0100000 => .some .SUBW
  | 0b001, 0b0000000 => .some .SLLW
  | 0b100, 0b0000001 => .some .DIVW
  | 0b101, 0b0000000 => .some .SRLW
  | 0b101, 0b0100000 => .some .SRAW
  | 0b000, 0b0000001 => .some .MULW
  | 0b101, 0b0000001 => .some .DIVUW
  | 0b110, 0b0000001 => .some .REMW
  | 0b111, 0b0000001 => .some .REMUW
  | _, _ => .none

def decodeAmoWidth (funct3 : Nat) : Option ReservationWidth :=
  match funct3 with
  | 0b010 => .some .word
  | 0b011 => .some .doubleword
  | _ => .none

def decodeAmo (width : ReservationWidth) (funct5 : Nat) (o : FormatR) : Option SeqOp :=
  match funct5 with
  | 0b00010 => .some (.lr width o)
  | 0b00011 => .some (.sc width o)
  | 0b00001 => .some (.amo .SWAP width o)
  | 0b00000 => .some (.amo .ADD width o)
  | 0b01100 => .some (.amo .AND width o)
  | 0b01000 => .some (.amo .OR width o)
  | 0b00100 => .some (.amo .XOR width o)
  | 0b10000 => .some (.amo .MIN width o)
  | 0b10100 => .some (.amo .MAX width o)
  | 0b11000 => .some (.amo .MINU width o)
  | 0b11100 => .some (.amo .MAXU width o)
  | _ => .none

def decodeSystem (word : U32) (funct3 : Nat) (o : FormatI) : Option Op :=
  if word = 0x00000073 then .some (.seq (.ECALL o))
  else if word = 0x00100073 then .some (.basic (.EBREAK o))
  else if word = 0x30200073 then .some (.seq (.MRET o))
  else match funct3 with
    | 1 => .some (.seq (.CSRRW o))
    | 2 => .some (.seq (.CSRRS o))
    | _ => .none

/-- Opcode 1011011, reserved for virtual instructions. -/
def decodeVirtual (word : U32) (funct3 : Nat) : Option Op :=
  match funct3 with
  | 0b000 => .some (.basic (.i .VirtualRev8W (FormatI.parse word)))
  | 0b001 => .some (.basic (.assert .VirtualAssertEQ (FormatB.parse word)))
  | 0b010 => .some (.basic (.VirtualHostIo (FormatI.parse word)))
  | 0b011 => .some (.seq (.advice .AdviceLB (FormatAdviceLoadI.parse word)))
  | 0b100 => .some (.seq (.advice .AdviceLH (FormatAdviceLoadI.parse word)))
  | 0b101 => .some (.seq (.advice .AdviceLW (FormatAdviceLoadI.parse word)))
  | 0b110 => .some (.seq (.advice .AdviceLD (FormatAdviceLoadI.parse word)))
  | 0b111 => .some (.basic (.VirtualAdviceLen (FormatI.parse word)))
  | _ => .none

def decodeOp (word : U32) : Option Op :=
  let funct3 := field word 12 0x7
  let funct7 := field word 25 0x7f
  match field word 0 0x7f with
  | 0b0110111 => .some (.basic (.u .LUI (FormatU.parse word)))
  | 0b0010111 => .some (.basic (.u .AUIPC (FormatU.parse word)))
  | 0b1101111 => .some (.basic (.JAL (FormatJ.parse word)))
  | 0b1100111 => if funct3 ≠ 0 then .none else .some (.basic (.JALR (FormatI.parse word)))
  | 0b1100011 => (decodeBranch funct3).map fun op => .basic (.branch op (FormatB.parse word))
  | 0b0000011 => decodeLoad funct3 (FormatLoad.parse word)
  | 0b0100011 => decodeStore funct3 (FormatS.parse word)
  | 0b0010011 => decodeArithI funct3 (field word 26 0x3f) (FormatI.parse word)
  | 0b0011011 => (decodeArithIW funct3 funct7).map fun op => .seq (.i op (FormatI.parse word))
  | 0b0110011 => decodeArithR funct3 funct7 (FormatR.parse word)
  | 0b0111011 => (decodeArithRW funct3 funct7).map fun op => .seq (.r op (FormatR.parse word))
  | 0b0001111 => .some (.basic .FENCE)
  | 0b0101111 => do
    let width ← decodeAmoWidth funct3
    let op ← decodeAmo width (field word 27 0x1f) (FormatR.parse word)
    pure (.seq op)
  | 0b1110011 => decodeSystem word funct3 (FormatI.parse word)
  | 0b0001011 => .some (.inline ⟨0b0001011, funct3, funct7, FormatInline.parse word⟩)
  | 0b0101011 => .some (.inline ⟨0b0101011, funct3, funct7, FormatInline.parse word⟩)
  | 0b1011011 => decodeVirtual word funct3
  | _ => .none

/-- `Instruction::decode`. -/
def Instruction.decode (word : U32) (address : U64) (compressed : Bool) : Option Instruction := do
  let op ← decodeOp word
  pure {
    op, address, virtualSequenceRemaining := .none, isFirstInSequence := false
    isCompressed := compressed }

/-- An instruction some word decodes to. -/
def Instruction.Decodable (i : Instruction) : Prop :=
  ∃ word compressed, Instruction.decode word i.address compressed = .some i

/-! ## What decodes -/

/-- Registers a program can name. -/
structure NormalizedOperands.Architectural (n : NormalizedOperands) : Prop where
  rs1 : ∀ r ∈ n.rs1, r < 32
  rs2 : ∀ r ∈ n.rs2, r < 32
  rd : ∀ r ∈ n.rd, r < 32

/-- The basic operations with an encoding; the others occur in sequences only. -/
def BasicOp.isEncodable : BasicOp → Bool
  | .r op _ => op ∈ [ROp.ADD, .SUB, .AND, .OR, .XOR, .SLT, .SLTU, .MUL, .MULHU]
  | .i op _ => op ∈ [IOp.ADDI, .ANDI, .ORI, .XORI, .SLTI, .SLTIU, .VirtualRev8W]
  | .assert op _ => op = .VirtualAssertEQ
  | .u .. | .branch .. | .JAL _ | .JALR _ | .LD _ | .SD _ | .VirtualAdviceLen _ | .VirtualHostIo _
  | .FENCE | .EBREAK _ => true
  | _ => false

/-- What the decoder makes of a word. -/
structure Op.Decoded (op : Op) : Prop where
  registers : op.normalize.Architectural
  encodable : ∀ b, op = .basic b → b.isEncodable

section Decoded

variable {word : U32} {funct3 funct6 funct7 : Nat} {op : Op}

theorem field_lt (lo : Nat) : field word lo 0x1f < 32 := by
  have h : field word lo 0x1f ≤ (0x1f : U32).toNat := by
    rw [field, BitVec.toNat_and]
    exact Nat.and_le_right
  exact Nat.lt_succ_of_le h

/-- Operands whose registers are the fields of a word. -/
theorem architectural_fields {n : NormalizedOperands}
    (h1 : n.rs1 = .none ∨ n.rs1 = .some (fieldRs1 word))
    (h2 : n.rs2 = .none ∨ n.rs2 = .some (fieldRs2 word))
    (hd : n.rd = .none ∨ n.rd = .some (fieldRd word)) : n.Architectural where
  rs1 r hr := by
    rcases h1 with h | h <;> rw [h] at hr
    · cases hr
    · exact Option.mem_some.mp hr ▸ field_lt 15
  rs2 r hr := by
    rcases h2 with h | h <;> rw [h] at hr
    · cases hr
    · exact Option.mem_some.mp hr ▸ field_lt 20
  rd r hr := by
    rcases hd with h | h <;> rw [h] at hr
    · cases hr
    · exact Option.mem_some.mp hr ▸ field_lt 7

/-- Operands a format's parse makes. -/
theorem decoded_of_fields (h1 : op.normalize.rs1 = .none ∨ op.normalize.rs1 = .some (fieldRs1 word))
    (h2 : op.normalize.rs2 = .none ∨ op.normalize.rs2 = .some (fieldRs2 word))
    (hd : op.normalize.rd = .none ∨ op.normalize.rd = .some (fieldRd word))
    (hop : ∀ b, op = .basic b → b.isEncodable) : op.Decoded :=
  ⟨architectural_fields h1 h2 hd, hop⟩

theorem decodeLoad_decoded (h : decodeLoad funct3 (FormatLoad.parse word) = .some op) :
    op.Decoded := by
  unfold decodeLoad at h
  split at h <;> cases h
  all_goals exact decoded_of_fields (.inr rfl) (.inl rfl) (.inr rfl) (by rintro b ⟨⟩ <;> rfl)

theorem decodeStore_decoded (h : decodeStore funct3 (FormatS.parse word) = .some op) :
    op.Decoded := by
  unfold decodeStore at h
  split at h <;> cases h
  all_goals exact decoded_of_fields (.inr rfl) (.inr rfl) (.inl rfl) (by rintro b ⟨⟩ <;> rfl)

theorem decodeArithI_decoded (h : decodeArithI funct3 funct6 (FormatI.parse word) = .some op) :
    op.Decoded := by
  unfold decodeArithI at h
  split at h <;> cases h
  all_goals exact decoded_of_fields (.inr rfl) (.inl rfl) (.inr rfl) (by rintro b ⟨⟩ <;> rfl)

theorem decodeArithR_decoded (h : decodeArithR funct3 funct7 (FormatR.parse word) = .some op) :
    op.Decoded := by
  unfold decodeArithR at h
  split at h <;> cases h
  all_goals exact decoded_of_fields (.inr rfl) (.inr rfl) (.inr rfl) (by rintro b ⟨⟩ <;> rfl)

theorem decodeAmo_decoded {width : ReservationWidth} {op : SeqOp} {funct5 : Nat}
    (h : decodeAmo width funct5 (FormatR.parse word) = .some op) : (Op.seq op).Decoded := by
  unfold decodeAmo at h
  split at h <;> cases h
  all_goals exact decoded_of_fields (.inr rfl) (.inr rfl) (.inr rfl) (by rintro b ⟨⟩)

theorem decodeSystem_decoded (h : decodeSystem word funct3 (FormatI.parse word) = .some op) :
    op.Decoded := by
  unfold decodeSystem at h
  split_ifs at h <;> first | cases h | split at h <;> cases h
  all_goals exact decoded_of_fields (.inr rfl) (.inl rfl) (.inr rfl) (by rintro b ⟨⟩ <;> rfl)

theorem decodeVirtual_decoded (h : decodeVirtual word funct3 = .some op) : op.Decoded := by
  unfold decodeVirtual at h
  split at h <;> cases h
  case h_2 =>
    exact decoded_of_fields (.inr rfl) (.inr rfl) (.inl rfl) (by rintro b ⟨⟩; rfl)
  case h_4 | h_5 | h_6 | h_7 =>
    exact decoded_of_fields (.inl rfl) (.inl rfl) (.inr rfl) (by rintro b ⟨⟩)
  all_goals exact decoded_of_fields (.inr rfl) (.inl rfl) (.inr rfl) (by rintro b ⟨⟩; rfl)

theorem decodeOp_decoded (h : decodeOp word = .some op) : op.Decoded := by
  unfold decodeOp at h
  split at h
  case h_1 | h_2 =>
    cases h
    exact decoded_of_fields (.inl rfl) (.inl rfl) (.inr rfl) (by rintro b ⟨⟩; rfl)
  case h_3 =>
    cases h
    exact decoded_of_fields (.inl rfl) (.inl rfl) (.inr rfl) (by rintro b ⟨⟩; rfl)
  case h_4 =>
    dsimp only at h
    split_ifs at h
    cases h
    exact decoded_of_fields (.inr rfl) (.inl rfl) (.inr rfl) (by rintro b ⟨⟩; rfl)
  case h_5 =>
    obtain ⟨bop, -, rfl⟩ := Option.map_eq_some_iff.mp h
    exact decoded_of_fields (.inr rfl) (.inr rfl) (.inl rfl) (by rintro b ⟨⟩; rfl)
  case h_6 => exact decodeLoad_decoded h
  case h_7 => exact decodeStore_decoded h
  case h_8 => exact decodeArithI_decoded h
  case h_9 =>
    obtain ⟨sop, -, rfl⟩ := Option.map_eq_some_iff.mp h
    exact decoded_of_fields (.inr rfl) (.inl rfl) (.inr rfl) (by rintro b ⟨⟩)
  case h_10 => exact decodeArithR_decoded h
  case h_11 =>
    obtain ⟨sop, -, rfl⟩ := Option.map_eq_some_iff.mp h
    exact decoded_of_fields (.inr rfl) (.inr rfl) (.inr rfl) (by rintro b ⟨⟩)
  case h_12 =>
    cases h
    exact @decoded_of_fields word _ (.inl rfl) (.inl rfl) (.inl rfl) (by rintro b ⟨⟩; rfl)
  case h_13 =>
    obtain ⟨width, -, h⟩ := Option.bind_eq_some_iff.mp h
    obtain ⟨sop, hsop, h⟩ := Option.bind_eq_some_iff.mp h
    cases h
    exact decodeAmo_decoded hsop
  case h_14 => exact decodeSystem_decoded h
  case h_15 | h_16 =>
    cases h
    exact decoded_of_fields (.inr rfl) (.inr rfl) (.inr rfl) (by rintro b ⟨⟩)
  case h_17 => exact decodeVirtual_decoded h
  case h_18 => cases h

theorem Instruction.Decodable.decoded {i : Instruction} (h : i.Decodable) : i.op.Decoded := by
  obtain ⟨word, compressed, h⟩ := h
  obtain ⟨op, hop, h⟩ := Option.bind_eq_some_iff.mp h
  have heq : op = i.op := congrArg Instruction.op (Option.some.inj h)
  exact decodeOp_decoded (heq ▸ hop)

/-- A decoded instruction is not part of a sequence. -/
theorem Instruction.Decodable.remaining {i : Instruction} (h : i.Decodable) :
    i.virtualSequenceRemaining = .none := by
  obtain ⟨word, compressed, h⟩ := h
  obtain ⟨op, hop, h⟩ := Option.bind_eq_some_iff.mp h
  exact (congrArg Instruction.virtualSequenceRemaining (Option.some.inj h)).symm

end Decoded

end LightningJolt
