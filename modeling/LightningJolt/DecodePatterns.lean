/-
The patterns of the instructions (`MASK` and `MATCH` in
`tracer/src/instruction/*.rs`), which the constructors assert of the word, and
the words the decoder takes for an instruction without them.
-/
import LightningJolt.Decode

namespace LightningJolt

/-! ## Patterns -/

/-- `MASK` and `MATCH` of an instruction. -/
structure Pattern where
  mask : U32
  value : U32
deriving DecidableEq

/-- What the constructor asserts of a word it is to validate. -/
def Pattern.Matches (p : Pattern) (word : U32) : Prop := word &&& p.mask = p.value

instance (p : Pattern) (word : U32) : Decidable (p.Matches word) :=
  inferInstanceAs (Decidable (_ = _))

/-- An instruction that is made in sequences only, or has no encoding of its own. -/
def Pattern.any : Pattern := ⟨0, 0⟩

def ROp.pattern : ROp → Pattern
  | .ADD => ⟨0xfe00707f, 0x00000033⟩
  | .SUB => ⟨0xfe00707f, 0x40000033⟩
  | .AND => ⟨0xfe00707f, 0x00007033⟩
  | .ANDN => ⟨0xfe00707f, 0x40007033⟩
  | .OR => ⟨0xfe00707f, 0x00006033⟩
  | .XOR => ⟨0xfe00707f, 0x00004033⟩
  | .SLT => ⟨0xfe00707f, 0x00002033⟩
  | .SLTU => ⟨0xfe00707f, 0x00003033⟩
  | .MUL => ⟨0xfe00707f, 0x02000033⟩
  | .MULHU => ⟨0xfe00707f, 0x02003033⟩
  | _ => .any

def IOp.pattern : IOp → Pattern
  | .ADDI => ⟨0x0000707f, 0x00000013⟩
  | .ANDI => ⟨0x0000707f, 0x00007013⟩
  | .ORI => ⟨0x0000707f, 0x00006013⟩
  | .XORI => ⟨0x0000707f, 0x00004013⟩
  | .SLTI => ⟨0x0000707f, 0x00002013⟩
  | .SLTIU => ⟨0x0000707f, 0x00003013⟩
  | _ => .any

def UOp.pattern : UOp → Pattern
  | .LUI => ⟨0x0000007f, 0x00000037⟩
  | .AUIPC => ⟨0x0000007f, 0x00000017⟩

def BranchOp.pattern : BranchOp → Pattern
  | .BEQ => ⟨0x0000707f, 0x00000063⟩
  | .BNE => ⟨0x0000707f, 0x00001063⟩
  | .BLT => ⟨0x0000707f, 0x00004063⟩
  | .BGE => ⟨0x0000707f, 0x00005063⟩
  | .BLTU => ⟨0x0000707f, 0x00006063⟩
  | .BGEU => ⟨0x0000707f, 0x00007063⟩

def BasicOp.pattern : BasicOp → Pattern
  | .r op _ => op.pattern
  | .i op _ => op.pattern
  | .u op _ => op.pattern
  | .branch op _ => op.pattern
  | .JAL _ => ⟨0x0000007f, 0x0000006f⟩
  | .JALR _ => ⟨0x0000707f, 0x00000067⟩
  | .LD _ => ⟨0x0000707f, 0x00003003⟩
  | .SD _ => ⟨0x0000707f, 0x00003023⟩
  | .FENCE => ⟨0x0000707f, 0x0000000f⟩
  | .EBREAK _ => ⟨0xffffffff, 0x00100073⟩
  | _ => .any

def SeqROp.pattern : SeqROp → Pattern
  | .DIV => ⟨0xfe00707f, 0x02004033⟩
  | .DIVU => ⟨0xfe00707f, 0x02005033⟩
  | .DIVW => ⟨0xfe00707f, 0x0200403b⟩
  | .DIVUW => ⟨0xfe00707f, 0x0200503b⟩
  | .REM => ⟨0xfe00707f, 0x02006033⟩
  | .REMU => ⟨0xfe00707f, 0x02007033⟩
  | .REMW => ⟨0xfe00707f, 0x0200603b⟩
  | .REMUW => ⟨0xfe00707f, 0x0200703b⟩
  | .MULH => ⟨0xfe00707f, 0x02001033⟩
  | .MULHSU => ⟨0xfe00707f, 0x02002033⟩
  | .MULW => ⟨0xfe00707f, 0x0200003b⟩
  | .ADDW => ⟨0xfe00707f, 0x0000003b⟩
  | .SUBW => ⟨0xfe00707f, 0x4000003b⟩
  | .SLL => ⟨0xfe00707f, 0x00001033⟩
  | .SLLW => ⟨0xfe00707f, 0x0000003b ||| (0b001 <<< 12)⟩
  | .SRL => ⟨0xfe00707f, 0x00005033⟩
  | .SRLW => ⟨0xfe00707f, 0x0000003b ||| (0b101 <<< 12)⟩
  | .SRA => ⟨0xfe00707f, 0x40005033⟩
  | .SRAW => ⟨0xfe00707f, 0x4000003b ||| (0b101 <<< 12)⟩

def SeqIOp.pattern : SeqIOp → Pattern
  | .ADDIW => ⟨0x0000707f, 0x0000001b⟩
  | .SLLI => ⟨0xfc00707f, 0x00001013⟩
  | .SLLIW => ⟨0xfc00707f, 0x0000101b⟩
  | .SRLI => ⟨0xfc00707f, 0x00005013⟩
  | .SRLIW => ⟨0xfc00707f, 0x0000501b⟩
  | .SRAI => ⟨0xfc00707f, 0x40005013⟩
  | .SRAIW => ⟨0xfc00707f, 0x4000501b⟩

def LoadOp.pattern : LoadOp → Pattern
  | .LB => ⟨0x0000707f, 0x00000003⟩
  | .LBU => ⟨0x0000707f, 0x00004003⟩
  | .LH => ⟨0x0000707f, 0x00001003⟩
  | .LHU => ⟨0x0000707f, 0x00005003⟩
  | .LW => ⟨0x0000707f, 0x00002003⟩
  | .LWU => ⟨0x0000707f, 0x00006003⟩

def StoreOp.pattern : StoreOp → Pattern
  | .SB => ⟨0x0000707f, 0x00000023⟩
  | .SH => ⟨0x0000707f, 0x00001023⟩
  | .SW => ⟨0x0000707f, 0x00002023⟩

def AmoOp.pattern : AmoOp → ReservationWidth → Pattern
  | .ADD, .word => ⟨0xf800707f, 0x0000202f⟩
  | .ADD, .doubleword => ⟨0xf800707f, 0x0000302f⟩
  | .AND, .word => ⟨0xf800707f, 0x6000202f⟩
  | .AND, .doubleword => ⟨0xf800707f, 0x6000302f⟩
  | .OR, .word => ⟨0xf800707f, 0x4000202f⟩
  | .OR, .doubleword => ⟨0xf800707f, 0x4000302f⟩
  | .XOR, .word => ⟨0xf800707f, 0x2000202f⟩
  | .XOR, .doubleword => ⟨0xf800707f, 0x2000302f⟩
  | .SWAP, .word => ⟨0xf800707f, 0x0800202f⟩
  | .SWAP, .doubleword => ⟨0xf800707f, 0x0800302f⟩
  | .MAX, .word => ⟨0xf800707f, 0xa000202f⟩
  | .MAX, .doubleword => ⟨0xf800707f, 0xa000302f⟩
  | .MIN, .word => ⟨0xf800707f, 0x8000202f⟩
  | .MIN, .doubleword => ⟨0xf800707f, 0x8000302f⟩
  | .MAXU, .word => ⟨0xf800707f, 0xe000202f⟩
  | .MAXU, .doubleword => ⟨0xf800707f, 0xe000302f⟩
  | .MINU, .word => ⟨0xf800707f, 0xc000202f⟩
  | .MINU, .doubleword => ⟨0xf800707f, 0xc000302f⟩

def SeqOp.pattern : SeqOp → Pattern
  | .r op _ => op.pattern
  | .i op _ => op.pattern
  | .load op _ => op.pattern
  | .store op _ => op.pattern
  | .amo op width _ => op.pattern width
  | .lr .word _ => ⟨0xf9f0707f, 0x1000202f⟩
  | .lr .doubleword _ => ⟨0xf9f0707f, 0x1000302f⟩
  | .sc .word _ => ⟨0xf800707f, 0x1800202f⟩
  | .sc .doubleword _ => ⟨0xf800707f, 0x1800302f⟩
  | .advice _ _ => .any
  | .CSRRW _ => ⟨0x0000707f, 0x00001073⟩
  | .CSRRS _ => ⟨0x0000707f, 0x00002073⟩
  | .ECALL _ => ⟨0xffffffff, 0x00000073⟩
  | .MRET _ => ⟨0xffffffff, 0x30200073⟩

/-- `INLINE` has a pattern too, that its constructor, never asked to validate, does not read. -/
def Op.pattern : Op → Pattern
  | .basic op => op.pattern
  | .seq op => op.pattern
  | .inline _ => ⟨0x0000707f, 0x0000002b⟩

/-! ## Patterns by their fields -/

/-- The pattern of an opcode. -/
def opcodePattern (opcode : Nat) : Pattern := ⟨0x0000007f, BitVec.ofNat 32 opcode⟩

/-- The pattern of an opcode and a `funct3`. -/
def funct3Pattern (opcode funct3 : Nat) : Pattern :=
  ⟨0x0000707f, BitVec.ofNat 32 opcode ||| BitVec.ofNat 32 funct3 <<< 12⟩

/-- The pattern of an opcode, a `funct3` and a field from bit `lo` up, of mask `mask`. -/
def functPattern (lo : Nat) (mask : U32) (opcode funct3 funct : Nat) : Pattern :=
  ⟨0x0000707f ||| mask <<< lo,
    BitVec.ofNat 32 opcode ||| BitVec.ofNat 32 funct3 <<< 12 ||| BitVec.ofNat 32 funct <<< lo⟩

section Fields

variable {word : U32} {opcode funct3 funct lo : Nat} {mask : U32}

theorem ofNat_field (word : U32) (lo : Nat) (mask : U32) :
    BitVec.ofNat 32 (field word lo mask) = (word >>> lo) &&& mask := by
  rw [field, BitVec.ofNat_toNat, BitVec.setWidth_eq]

/-- The bits of a field, in their place. -/
theorem field_shiftLeft (h : field word lo mask = funct) :
    word &&& mask <<< lo = BitVec.ofNat 32 funct <<< lo := by
  rw [← h, ofNat_field]
  ext i hi
  by_cases hlo : i < lo
  · simp [hlo]
  · have hi' : lo + (i - lo) = i := by omega
    simp [hlo, hi', BitVec.getLsbD_eq_getElem hi]

theorem matches_opcode (h0 : field word 0 0x7f = opcode) : (opcodePattern opcode).Matches word := by
  have hop := field_shiftLeft h0
  rwa [BitVec.shiftLeft_zero, BitVec.shiftLeft_zero] at hop

theorem matches_funct3 (h0 : field word 0 0x7f = opcode) (h3 : field word 12 0x7 = funct3) :
    (funct3Pattern opcode funct3).Matches word := by
  have hop : word &&& (0x7f : U32) = BitVec.ofNat 32 opcode := matches_opcode h0
  have hfunct3 := field_shiftLeft h3
  change word &&& ((0x7f : U32) ||| (0x7 : U32) <<< 12) = BitVec.ofNat 32 opcode ||| BitVec.ofNat 32 funct3 <<< 12
  rw [← hop, ← hfunct3, BitVec.and_or_distrib_left]

theorem matches_funct (h0 : field word 0 0x7f = opcode) (h3 : field word 12 0x7 = funct3)
    (hfunct : field word lo mask = funct) :
    (functPattern lo mask opcode funct3 funct).Matches word := by
  have hfirst : word &&& (0x707f : U32) = BitVec.ofNat 32 opcode ||| BitVec.ofNat 32 funct3 <<< 12 :=
    matches_funct3 h0 h3
  have hlast := field_shiftLeft hfunct
  change word &&& ((0x707f : U32) ||| mask <<< lo) = _
  rw [BitVec.and_or_distrib_left, hfirst, hlast]
  rfl

theorem matches_word {value : U32} (h : word = value) : (⟨0xffffffff, value⟩ : Pattern).Matches word := by
  subst h
  exact BitVec.and_allOnes

/-- A word with a pattern has every coarser one. -/
theorem Pattern.Matches.coarsen {p q : Pattern} (h : p.Matches word) (hmask : p.mask &&& q.mask = q.mask)
    (hvalue : p.value &&& q.mask = q.value) : q.Matches word := by
  unfold Pattern.Matches at h ⊢
  rw [← hvalue, ← h, BitVec.and_assoc, hmask]

end Fields

/-! ## The patterns of what is decoded -/

section Decoders

variable {word : U32} {funct3 funct6 funct7 funct5 : Nat} {op : Op} {width : ReservationWidth}

theorem decodeBranch_pattern {bop : BranchOp} (h : decodeBranch funct3 = .some bop) :
    bop.pattern = funct3Pattern 0b1100011 funct3 := by
  unfold decodeBranch at h
  split at h <;> cases h
  all_goals rfl

theorem decodeLoad_pattern {o : FormatLoad} (h : decodeLoad funct3 o = .some op) :
    op.pattern = funct3Pattern 0b0000011 funct3 := by
  unfold decodeLoad at h
  split at h <;> cases h
  all_goals rfl

theorem decodeStore_pattern {o : FormatS} (h : decodeStore funct3 o = .some op) :
    op.pattern = funct3Pattern 0b0100011 funct3 := by
  unfold decodeStore at h
  split at h <;> cases h
  all_goals rfl

/-- The shifts have their `funct6` in the pattern, the others nothing but `funct3`. -/
theorem decodeArithI_pattern {o : FormatI} (h : decodeArithI funct3 funct6 o = .some op) :
    op.pattern = functPattern 26 0x3f 0b0010011 funct3 funct6 ∨
      op.pattern = funct3Pattern 0b0010011 funct3 := by
  unfold decodeArithI at h
  split at h <;> cases h
  case h_1 | h_3 | h_4 => exact .inl rfl
  all_goals exact .inr rfl

theorem decodeArithR_pattern {o : FormatR} (h : decodeArithR funct3 funct7 o = .some op) :
    op.pattern = functPattern 25 0x7f 0b0110011 funct3 funct7 := by
  unfold decodeArithR at h
  split at h <;> cases h
  all_goals rfl

theorem decodeArithRW_pattern {sop : SeqROp} (h : decodeArithRW funct3 funct7 = .some sop) :
    sop.pattern = functPattern 25 0x7f 0b0111011 funct3 funct7 := by
  unfold decodeArithRW at h
  split at h <;> cases h
  all_goals rfl

/-- The shifts leave bit 25 out of the pattern. -/
theorem decodeArithIW_matches {sop : SeqIOp} (h0 : field word 0 0x7f = 0b0011011)
    (h3 : field word 12 0x7 = funct3) (h7 : field word 25 0x7f = funct7)
    (h : decodeArithIW funct3 funct7 = .some sop) : sop.pattern.Matches word := by
  unfold decodeArithIW at h
  split at h <;> cases h
  case h_1 => exact matches_funct3 h0 h3
  all_goals exact (matches_funct h0 h3 h7).coarsen (by decide) (by decide)

/-- The atomics but `LR`, whose pattern has `rs2` as well. -/
theorem decodeAmo_pattern {sop : SeqOp} {o : FormatR} (hwidth : decodeAmoWidth funct3 = .some width)
    (h : decodeAmo width funct5 o = .some sop) (hlr : sop ≠ .lr width o) :
    sop.pattern = functPattern 27 0x1f 0b0101111 funct3 funct5 := by
  unfold decodeAmoWidth at hwidth
  split at hwidth <;> cases hwidth
  all_goals
    unfold decodeAmo at h
    split at h <;> cases h
    case h_1 => exact absurd rfl hlr
    all_goals rfl

theorem decodeSystem_matches {o : FormatI} (h0 : field word 0 0x7f = 0b1110011)
    (h3 : field word 12 0x7 = funct3) (h : decodeSystem word funct3 o = .some op) :
    op.pattern.Matches word := by
  unfold decodeSystem at h
  split_ifs at h with hecall hebreak hmret
  · cases h
    exact matches_word hecall
  · cases h
    exact matches_word hebreak
  · cases h
    exact matches_word hmret
  · split at h <;> cases h
    all_goals exact matches_funct3 h0 h3

/-- The virtual instructions have no pattern, and any word is theirs. -/
theorem decodeVirtual_pattern (h : decodeVirtual word funct3 = .some op) : op.pattern = .any := by
  unfold decodeVirtual at h
  split at h <;> cases h
  all_goals rfl

theorem Pattern.matches_any (word : U32) : Pattern.any.Matches word := by
  unfold Pattern.Matches Pattern.any
  exact BitVec.and_zero

/-! ## The words an instruction is decoded from -/

/-- The words the decoder takes for a `FENCE` or an `LR` without a look at the
`funct3` of the one and the `rs2` of the other. -/
def Unchecked (word : U32) : Prop :=
  (field word 0 0x7f = 0b0001111 ∧ field word 12 0x7 ≠ 0) ∨
    (field word 0 0x7f = 0b0101111 ∧ field word 27 0x1f = 0b00010 ∧ fieldRs2 word ≠ 0)

theorem fence_matches (h0 : field word 0 0x7f = 0b0001111) (hunchecked : ¬ Unchecked word) :
    BasicOp.FENCE.pattern.Matches word := by
  have h3 : field word 12 0x7 = 0 := by_contra fun hne => hunchecked (.inl ⟨h0, hne⟩)
  exact matches_funct3 h0 h3

theorem lr_matches {o : FormatR} (hwidth : decodeAmoWidth (field word 12 0x7) = .some width)
    (h0 : field word 0 0x7f = 0b0101111) (h5 : field word 27 0x1f = 0b00010)
    (hunchecked : ¬ Unchecked word) : (SeqOp.lr width o).pattern.Matches word := by
  have hrs2 : field word 20 0x1f = 0 := by_contra fun hne => hunchecked (.inr ⟨h0, h5, hne⟩)
  have hzero := field_shiftLeft hrs2
  have hfunct : word &&& ((0x707f : U32) ||| (0x1f : U32) <<< 27) = _ := matches_funct h0 rfl h5
  have hmask : (0xf9f0707f : U32) = ((0x707f : U32) ||| (0x1f : U32) <<< 27) ||| (0x1f : U32) <<< 20 := by decide
  generalize hfunct3 : field word 12 0x7 = funct3 at hwidth hfunct
  unfold decodeAmoWidth at hwidth
  split at hwidth <;> cases hwidth
  all_goals
    change word &&& (0xf9f0707f : U32) = _
    rw [hmask, BitVec.and_or_distrib_left, hfunct, hzero]
    rfl

/-- The funct5 of an `LR`. -/
theorem decodeAmo_lr {o o' : FormatR} {width' : ReservationWidth}
    (h : decodeAmo width funct5 o = .some (.lr width' o')) : funct5 = 0b00010 ∧ width' = width := by
  unfold decodeAmo at h
  split at h <;> cases h
  exact ⟨rfl, rfl⟩

theorem decodeAmo_matches {sop : SeqOp} {o : FormatR} (h0 : field word 0 0x7f = 0b0101111)
    (hwidth : decodeAmoWidth (field word 12 0x7) = .some width)
    (h : decodeAmo width (field word 27 0x1f) o = .some sop) (hunchecked : ¬ Unchecked word) :
    sop.pattern.Matches word := by
  by_cases hlr : sop = .lr width o
  · subst hlr
    exact lr_matches hwidth h0 (decodeAmo_lr h).1 hunchecked
  · rw [decodeAmo_pattern hwidth h hlr]
    exact matches_funct h0 rfl rfl

/-- An `INLINE` of one of its opcodes, or an instruction whose fields the decoder has read. -/
theorem decodeOp_matches (h : decodeOp word = .some op) :
    (∃ inline, op = .inline inline ∧ (field word 0 0x7f = 0b0001011 ∨ field word 0 0x7f = 0b0101011)) ∨
      (¬ Unchecked word → op.pattern.Matches word) := by
  unfold decodeOp at h
  split at h
  case h_15 h0 =>
    cases h
    exact .inl ⟨_, rfl, .inl h0⟩
  case h_16 h0 =>
    cases h
    exact .inl ⟨_, rfl, .inr h0⟩
  all_goals refine .inr fun hunchecked => ?_
  case h_1 h0 | h_2 h0 | h_3 h0 =>
    cases h
    exact matches_opcode h0
  case h_4 h0 =>
    dsimp only at h
    split_ifs at h with h3
    cases h
    exact matches_funct3 h0 (not_not.mp h3)
  case h_5 h0 =>
    obtain ⟨bop, hbop, rfl⟩ := Option.map_eq_some_iff.mp h
    change bop.pattern.Matches word
    exact decodeBranch_pattern hbop ▸ matches_funct3 h0 rfl
  case h_6 h0 => exact decodeLoad_pattern h ▸ matches_funct3 h0 rfl
  case h_7 h0 => exact decodeStore_pattern h ▸ matches_funct3 h0 rfl
  case h_8 h0 =>
    rcases decodeArithI_pattern h with heq | heq
    · exact heq ▸ matches_funct h0 rfl rfl
    · exact heq ▸ matches_funct3 h0 rfl
  case h_9 h0 =>
    obtain ⟨sop, hsop, rfl⟩ := Option.map_eq_some_iff.mp h
    exact decodeArithIW_matches h0 rfl rfl hsop
  case h_10 h0 => exact decodeArithR_pattern h ▸ matches_funct h0 rfl rfl
  case h_11 h0 =>
    obtain ⟨sop, hsop, rfl⟩ := Option.map_eq_some_iff.mp h
    change sop.pattern.Matches word
    exact decodeArithRW_pattern hsop ▸ matches_funct h0 rfl rfl
  case h_12 h0 =>
    cases h
    exact fence_matches h0 hunchecked
  case h_13 h0 =>
    obtain ⟨width, hwidth, h⟩ := Option.bind_eq_some_iff.mp h
    obtain ⟨sop, hsop, h⟩ := Option.bind_eq_some_iff.mp h
    cases h
    exact decodeAmo_matches h0 hwidth hsop hunchecked
  case h_14 h0 => exact decodeSystem_matches h0 rfl h
  case h_17 => exact decodeVirtual_pattern h ▸ Pattern.matches_any word
  case h_18 => cases h

end Decoders

/-- **What is decoded has its pattern.** A word is an error or decodes to an
instruction whose `MASK` and `MATCH` it satisfies, unless it is an `INLINE`,
which two opcodes are reserved for and which is made without validation. -/
theorem decode_matches (word : U32) (address : U64) (compressed : Bool) :
    Instruction.decode word address compressed = .none ∨
      ∃ i, Instruction.decode word address compressed = .some i ∧
        ((∃ inline, i.op = .inline inline ∧
            (field word 0 0x7f = 0b0001011 ∨ field word 0 0x7f = 0b0101011)) ∨
          (¬ Unchecked word → i.op.pattern.Matches word)) := by
  cases h : decodeOp word with
  | none => exact .inl (by rw [Instruction.decode, h]; rfl)
  | some op =>
    refine .inr ⟨_, by rw [Instruction.decode, h]; rfl, ?_⟩
    exact decodeOp_matches h

/-- A word of the first reserved opcode, whose `INLINE` has the pattern of the second. -/
theorem decode_inline_mismatch :
    ¬ ∀ word address compressed i, Instruction.decode word address compressed = .some i →
      i.op.pattern.Matches word := by
  intro hmatches
  exact absurd (hmatches 0x0000000b 0 false _ rfl) (by decide)

end LightningJolt
