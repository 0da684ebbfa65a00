/-
The row-local constraints on the cycles that `Instruction::trace` emits.

Along a run two facts are kept that `R1csLocal` needs of a cycle: the mask a
shift reads was left by the operation right before it, and a jump, which is
the last of its sequence, finds the counter past the instruction. Both follow
from the shape of the sequence.
-/
import LightningJolt.R1csLocal
import LightningJolt.Emission

namespace LightningJolt

/-! ## The shape of a sequence -/

namespace BasicOp

/-- Operations after which the counter is as before. -/
def keepsPc : BasicOp → Bool
  | .branch .. | .JAL _ | .JALR _ | .VirtualHostIo _ | .EBREAK _ => false
  | _ => true

/-- The mask of a shift comes from the operation before it, or is one as it stands. -/
def Follows (before : Option BasicOp) : BasicOp → Prop
  | .shiftR _ o => o.rs2 ≠ 0 ∧
      ∃ source imm, before = .some (.i .VirtualShiftRightBitmask ⟨o.rs2, source, imm⟩)
  | op => ∀ x, op.Masked x

/-- A sequence each operation of which is regular, follows the one before it, and leaves
the counter to the last. -/
def Sequenced (before : Option BasicOp) : List BasicOp → Prop
  | [] => True
  | op :: ops => op.Regular ∧ op.Follows before ∧ (ops ≠ [] → op.keepsPc) ∧ Sequenced (.some op) ops

/-- The register an operation `before` left a mask in. -/
def LeftMask (before : Option BasicOp) (x : Registers) : Prop :=
  ∀ r source imm, before = .some (.i .VirtualShiftRightBitmask ⟨r, source, imm⟩) → r ≠ 0 →
    ∃ s < 64, x.read r = shiftRightBitmask s

variable {op : BasicOp} {before : Option BasicOp} {x : Registers} {address : U64} {cpu cpu' : Cpu}
  {access : RamAccess}

theorem Follows.masked (h : op.Follows before) (hbefore : LeftMask before x) : op.Masked x := by
  cases op with
  | shiftR sop o =>
    obtain ⟨hne, source, imm, hset⟩ := h
    exact hbefore _ source imm hset hne
  | _ => exact h x

theorem jump_moves (h : .Jump ∈ op.circuitFlags) : op.keepsPc = false := by
  rcases of_jump h with ⟨o, rfl⟩ | ⟨o, rfl⟩
  · rfl
  · rfl

theorem exec_leftMask (h : op.exec address cpu = .some (access, cpu')) : LeftMask (.some op) cpu'.x := by
  intro r source imm hop hr
  cases Option.some.inj hop
  cases h
  refine ⟨(cpu.x.read source &&& 0x3f).toNat, ?_, ?_⟩
  · rw [BitVec.toNat_and]
    exact Nat.lt_succ_of_le Nat.and_le_right
  · exact Registers.read_write_self _ _ hr

theorem exec_pc (hop : op.keepsPc) (h : op.exec address cpu = .some (access, cpu')) :
    cpu'.pc = cpu.pc := by
  cases op with
  | noOp | VirtualLW | VirtualSW => cases h
  | branch | JAL | JALR | VirtualHostIo | EBREAK => exact absurd hop Bool.false_ne_true
  | LD o =>
    obtain ⟨value, -, -, hpc⟩ := exec_LD h
    exact hpc
  | SD o =>
    obtain ⟨pre, -, -, hpc⟩ := exec_SD h
    exact hpc
  | VirtualAdviceLoad o =>
    obtain ⟨⟨value, tape⟩, -, hwrite⟩ := Option.bind_eq_some_iff.mp h
    cases hwrite
    rfl
  | assert op o | align op o =>
    simp only [BasicOp.exec] at h
    split at h <;> cases h
    all_goals rfl
  | _ =>
    cases h
    rfl

end BasicOp

/-! ## Runs -/

namespace BasicInstruction

variable {is : List BasicInstruction} {cpu cpu' : Cpu} {cycles : List Cycle} {before : Option BasicOp}

/-- What a cycle of a run is traced from. -/
def TracedWell (i : BasicInstruction) (c : Cycle) : Prop :=
  ∃ cpu cpu', i.traceRaw cpu = .some ([c], cpu') ∧ i.op.Regular ∧ i.op.Masked cpu.x ∧
    (.Jump ∈ i.op.circuitFlags → i.PcPast cpu)

/-- Every cycle of a sequenced run is traced from a state that keeps the masks and the
counter. -/
theorem traceAllRaw_tracedWell (hshape : BasicOp.Sequenced before (is.map (·.op)))
    (hmask : BasicOp.LeftMask before cpu.x)
    (hpc : ∀ i ∈ is.getLast?, .Jump ∈ i.op.circuitFlags → i.PcPast cpu)
    (hrun : traceAllRaw is cpu = .some (cycles, cpu')) :
    ∀ c ∈ cycles, ∃ i ∈ is, i.TracedWell c := by
  induction is generalizing before cpu cycles with
  | nil =>
    cases hrun
    simp
  | cons i is ih =>
    obtain ⟨hregular, hfollows, hkeeps, hrest⟩ := hshape
    rw [traceAllRaw_cons] at hrun
    obtain ⟨⟨cs, cpu1⟩, hhead, hrun⟩ := Option.bind_eq_some_iff.mp hrun
    obtain ⟨⟨ds, cpu2⟩, htail, hrun⟩ := Option.bind_eq_some_iff.mp hrun
    obtain ⟨access, hexec, -⟩ := traceRaw_exec hhead
    obtain ⟨c, rfl, -, -⟩ := traceRaw_cases hhead
    cases hrun
    have hjump (hflag : .Jump ∈ i.op.circuitFlags) : i.PcPast cpu := by
      refine hpc i ?_ hflag
      have hlast : is = [] := by
        by_contra hne
        have hkept := hkeeps (by simpa using hne)
        rw [BasicOp.jump_moves hflag] at hkept
        exact Bool.false_ne_true hkept
      rw [hlast]
      rfl
    intro d hd
    rcases List.mem_cons.mp hd with rfl | hd
    · exact ⟨i, List.mem_cons_self .., cpu, cpu1, hhead, hregular, hfollows.masked hmask, hjump⟩
    · have hlater : ∀ j ∈ is.getLast?, .Jump ∈ j.op.circuitFlags → j.PcPast cpu1 := by
        intro j hj hflag
        have hne : is ≠ [] := by
          rintro rfl
          cases hj
        have hlast : (i :: is).getLast? = .some j := by
          rw [List.getLast?_cons, Option.mem_def.mp hj]
          rfl
        have hkept := BasicOp.exec_pc (hkeeps (by simpa using hne)) hexec
        exact hkept.trans (hpc j hlast hflag)
      obtain ⟨j, hj, hwell⟩ := ih hrest (BasicOp.exec_leftMask hexec) hlater htail d hd
      exact ⟨j, List.mem_cons_of_mem _ hj, hwell⟩

end BasicInstruction

/-! ## The sequences of the instructions -/

theorem low_lt (x : U64) : (x &&& 0x3f).toNat < 64 := by
  rw [BitVec.toNat_and]
  exact Nat.lt_succ_of_le Nat.and_le_right

theorem lowWordShift_lt (x : U64) : (x &&& 0x1f).toNat < 32 := by
  rw [BitVec.toNat_and]
  exact Nat.lt_succ_of_le Nat.and_le_right

theorem csrToVirtualRegister_ne {csr vr : Nat} (h : csrToVirtualRegister csr = .some vr) : vr ≠ 0 := by
  unfold csrToVirtualRegister at h
  split at h <;> cases h
  all_goals decide

/-- A sequence that keeps its masks and its counter, and leaves `x0` alone. -/
structure BasicOp.Shaped (ops : List BasicOp) : Prop where
  sequenced : Sequenced .none ops
  rd_ne : ∀ op ∈ ops, op.rd ≠ .some 0

section Shapes

variable {next : Nat}

/-- Immediates that are masks as `shiftRightBitmask` makes them. -/
theorem exists_mask {s : Nat} (hs : s < 64) : ∃ t < 64, shiftRightBitmask s = shiftRightBitmask t :=
  ⟨s, hs, rfl⟩

-- What every sequence is written in, unfolded once for the lemmas of the section.
attribute [local simp] BasicOp.Sequenced BasicOp.Follows BasicOp.Regular BasicOp.Masked BasicOp.keepsPc
  BasicOp.rd BasicOp.normalize SLLI.inlineSequence SLL.inlineSequence SRL.inlineSequence SRLI.inlineSequence
  SRAI.inlineSequence LW.inlineSequence SW.inlineSequence rightShiftSequence rightShiftISequence loadDword
  exists_mask

theorem SeqROp.shaped (op : SeqROp) {o : FormatR} (hrd : o.rd ≠ 0) (hnext : next ≠ 0) :
    BasicOp.Shaped (op.inlineSequence o next) := by
  constructor <;> cases op <;>
    simp [SeqROp.inlineSequence, DIV.inlineSequence, REM.inlineSequence, DIVW.inlineSequence,
      REMW.inlineSequence, divRemWSequence, DIVU.inlineSequence, REMU.inlineSequence,
      DIVUW.inlineSequence, REMUW.inlineSequence, MULH.inlineSequence, MULHSU.inlineSequence,
      MULW.inlineSequence, ADDW.inlineSequence, SUBW.inlineSequence, wordSequence,
      SLLW.inlineSequence, SRA.inlineSequence, SRLW.inlineSequence, SRAW.inlineSequence, hrd, hnext]

theorem SeqIOp.shaped (op : SeqIOp) {o : FormatI} (hrd : o.rd ≠ 0) (hnext : next ≠ 0) :
    BasicOp.Shaped (op.inlineSequence o next) := by
  have hlow := low_lt o.imm
  have hword := lowWordShift_lt o.imm
  have hmask : ∃ t < 64, shiftRightBitmask (o.imm &&& 63#64).toNat = shiftRightBitmask t :=
    exists_mask hlow
  have hmaskWord : ∃ t < 64, shiftRightBitmask (o.imm &&& 31#64).toNat = shiftRightBitmask t :=
    exists_mask (hword.trans (by decide))
  have hmaskTop : ∃ t < 64, shiftRightBitmask ((o.imm &&& 31#64).toNat + 32) = shiftRightBitmask t :=
    exists_mask (Nat.add_lt_add_right hword 32)
  constructor
  · cases op <;>
      simp [SeqIOp.inlineSequence, ADDIW.inlineSequence, SLLIW.inlineSequence, SRLIW.inlineSequence,
        SRAIW.inlineSequence, hrd, hnext, hmask, hmaskWord, hmaskTop, -BitVec.toNat_and]
  · cases op <;>
      simp [SeqIOp.inlineSequence, ADDIW.inlineSequence, SLLIW.inlineSequence, SRLIW.inlineSequence,
        SRAIW.inlineSequence, hrd, hnext]

theorem LoadOp.shaped (op : LoadOp) {o : FormatLoad} (hrd : o.rd ≠ 0) (hnext : next ≠ 0) :
    BasicOp.Shaped (op.inlineSequence o next) := by
  constructor <;> cases op <;>
    simp [LoadOp.inlineSequence, LB.inlineSequence, LBU.inlineSequence, LH.inlineSequence,
      LHU.inlineSequence, LWU.inlineSequence, loadSequence, hrd, hnext]

theorem StoreOp.shaped (op : StoreOp) {o : FormatS} (hnext : next ≠ 0) :
    BasicOp.Shaped (op.inlineSequence o next) := by
  constructor <;> cases op <;>
    simp [StoreOp.inlineSequence, SB.inlineSequence, SH.inlineSequence, storeSequence, hnext]

theorem AmoOp.shaped (op : AmoOp) (width : ReservationWidth) {o : FormatR} (hrd : o.rd ≠ 0)
    (hnext : next ≠ 0) : BasicOp.Shaped (op.inlineSequence width o next) := by
  constructor <;> cases width <;> cases op <;>
    simp [AmoOp.inlineSequence, AMOADDW.inlineSequence, AMOANDW.inlineSequence, AMOORW.inlineSequence,
      AMOXORW.inlineSequence, AMOSWAPW.inlineSequence, AMOMAXW.inlineSequence, AMOMINW.inlineSequence,
      AMOMAXUW.inlineSequence, AMOMINUW.inlineSequence, AMOADDD.inlineSequence,
      AMOANDD.inlineSequence, AMOORD.inlineSequence, AMOXORD.inlineSequence, AMOSWAPD.inlineSequence,
      AMOMAXD.inlineSequence, AMOMIND.inlineSequence, AMOMAXUD.inlineSequence,
      AMOMINUD.inlineSequence, amoArithW, amoSelectW, amoArithD, amoSelectD, amoPre64, amoPost64, hrd,
      hnext]

/-- The sequences of the other instructions, of an `rd` other than `x0`. -/
theorem SeqOp.shaped {op : SeqOp} {ops : List BasicOp} (hrd : op.rd ≠ .some 0) (hnext : next ≠ 0)
    (h : op.inlineSequence next = .some ops) : BasicOp.Shaped ops := by
  have hne {rd : Nat} (hop : op.rd = .some rd) : rd ≠ 0 := fun hzero => hrd (hzero ▸ hop)
  cases op with
  | r op o =>
    cases h
    exact op.shaped (hne rfl) hnext
  | i op o =>
    cases h
    exact op.shaped (hne rfl) hnext
  | load op o =>
    cases h
    exact op.shaped (hne rfl) hnext
  | store op o =>
    cases h
    exact op.shaped hnext
  | amo op width o =>
    cases h
    exact op.shaped width (hne rfl) hnext
  | lr width o =>
    have hord : o.rd ≠ 0 := hne rfl
    cases width <;> cases h <;> constructor <;>
      simp [LRW.inlineSequence, LRD.inlineSequence, reservationWRegister, reservationDRegister, hord,
        hnext]
  | sc width o =>
    have hord : o.rd ≠ 0 := hne rfl
    cases width <;> cases h <;> constructor <;>
      simp [SCW.inlineSequence, SCD.inlineSequence, scPrelude, reservationWRegister,
        reservationDRegister, hord, hnext]
  | advice op o =>
    have hord : o.rd ≠ 0 := hne rfl
    cases op <;> cases h <;> constructor <;>
      simp [AdviceOp.inlineSequence, AdviceLB.inlineSequence, AdviceLH.inlineSequence,
        AdviceLW.inlineSequence, AdviceLD.inlineSequence, adviceLoadSequence, hord]
  | CSRRW o =>
    have hord : o.rd ≠ 0 := hne rfl
    rcases CSRRW.sequence_cases h with rfl | ⟨vr, hvr, ⟨-, rfl⟩ | ⟨-, rfl⟩ | ⟨-, rfl⟩⟩
    · exact ⟨⟨.inl (by decide), fun _ => trivial, fun h => absurd rfl h, trivial⟩, by decide⟩
    all_goals
      have hvr := csrToVirtualRegister_ne hvr
      constructor <;>
        simp [hord, hvr, hnext]
  | CSRRS o =>
    have hord : o.rd ≠ 0 := hne rfl
    rcases CSRRS.sequence_cases h with rfl | ⟨vr, hvr, rfl | ⟨-, rfl⟩ | ⟨-, rfl⟩ | ⟨-, rfl⟩⟩
    · exact ⟨⟨.inl (by decide), fun _ => trivial, fun h => absurd rfl h, trivial⟩, by decide⟩
    all_goals
      have hvr := csrToVirtualRegister_ne hvr
      constructor <;>
        simp [hord, hvr, hnext]
  | ECALL o | MRET o =>
    cases h
    constructor <;>
      simp [ECALL.inlineSequence, MRET.inlineSequence, mepcRegister, mcauseRegister, mtvalRegister,
        mstatusRegister, hnext]

/-- The sequences that handle an `rd` of `x0` themselves: only an `ADDI` may write it. -/
theorem SeqOp.sequenced_x0 {op : SeqOp} {ops : List BasicOp} (hx0 : (Op.seq op).handlesX0)
    (hnext : next ≠ 0) (h : op.inlineSequence next = .some ops) : BasicOp.Sequenced .none ops := by
  have hone : (.some 1 : Option Nat) ≠ .some 0 := by decide
  cases op with
  | CSRRW o =>
    rcases CSRRW.sequence_cases h with rfl | ⟨vr, hvr, ⟨hrd, rfl⟩ | ⟨hrd, rfl⟩ | ⟨hrd, rfl⟩⟩
    · exact ⟨.inl (by decide), fun _ => trivial, fun h => absurd rfl h, trivial⟩
    all_goals
      have hvr := csrToVirtualRegister_ne hvr
      simp
  | CSRRS o =>
    rcases CSRRS.sequence_cases h with rfl | ⟨vr, hvr, rfl | ⟨-, rfl⟩ | ⟨-, rfl⟩ | ⟨-, rfl⟩⟩
    · exact ⟨.inl (by decide), fun _ => trivial, fun h => absurd rfl h, trivial⟩
    all_goals
      have hvr := csrToVirtualRegister_ne hvr
      simp [hvr]
  | ECALL o => exact (@SeqOp.shaped next (.ECALL { o with rd := 1 }) ops hone hnext h).sequenced
  | MRET o => exact (@SeqOp.shaped next (.MRET { o with rd := 1 }) ops hone hnext h).sequenced
  | _ => cases hx0

end Shapes

/-! ## Advice -/

namespace BasicOp

/-- The operation without the value of its advice. -/
def forget : BasicOp → BasicOp
  | .VirtualAdvice o _ => .VirtualAdvice o 0
  | op => op

variable {op : BasicOp} {ops ops' : List BasicOp} {before : Option BasicOp}

theorem forget_rd : op.forget.rd = op.rd := by
  cases op <;> rfl

theorem forget_follows : op.forget.Follows (before.map forget) ↔ op.Follows before := by
  cases op with
  | shiftR sop o =>
    refine and_congr_right fun _ => exists_congr fun source => exists_congr fun imm => ?_
    cases before with
    | none => exact Iff.rfl
    | some b =>
      simp only [Option.map_some, Option.some.injEq]
      cases b <;> simp [forget]
  | _ => exact Iff.rfl

theorem forget_regular : op.forget.Regular ↔ op.Regular := by
  cases op with
  | VirtualAdvice o advice => simp [forget, Regular, BasicOp.rd, normalize]
  | _ => exact Iff.rfl

theorem forget_keepsPc : op.forget.keepsPc = op.keepsPc := by
  cases op <;> rfl

theorem sequenced_forget : Sequenced (before.map forget) (ops.map forget) ↔ Sequenced before ops := by
  induction ops generalizing before with
  | nil => exact Iff.rfl
  | cons op ops ih =>
    have hrest := @ih (.some op)
    simp only [Option.map_some] at hrest
    simp only [List.map_cons, Sequenced, forget_regular, forget_follows, forget_keepsPc, hrest, ne_eq,
      List.map_eq_nil_iff]

/-- The shape does not depend on the advice. -/
theorem Shaped.of_forget (h : Shaped ops) (heq : ops'.map forget = ops.map forget) : Shaped ops' where
  sequenced := by
    rw [← sequenced_forget, heq]
    exact sequenced_forget.mpr h.sequenced
  rd_ne op hop := by
    have hmem : op.forget ∈ ops.map forget := heq ▸ List.mem_map_of_mem hop
    obtain ⟨b, hb, hforget⟩ := List.mem_map.mp hmem
    rw [← forget_rd, ← hforget, forget_rd]
    exact h.rd_ne b hb

end BasicOp

section Filling

variable {ops ops' : List BasicOp}

theorem setAdvice_forget {n : Nat} {v : U64} (h : setAdvice n v ops = .some ops') :
    ops'.map BasicOp.forget = ops.map BasicOp.forget := by
  unfold setAdvice at h
  split at h
  case h_1 o w hget =>
    cases h
    refine List.ext_getElem? fun k => ?_
    rw [List.getElem?_map, List.getElem?_map, List.getElem?_set]
    by_cases hk : n = k
    · obtain ⟨hlt, -⟩ := List.getElem?_eq_some_iff.mp hget
      rw [if_pos hk, if_pos (hk ▸ hlt), ← hk, hget]
      rfl
    · rw [if_neg hk]
  case h_2 => cases h

theorem setTwo_forget {m n : Nat} {v w : U64}
    (h : (setAdvice m v ops >>= setAdvice n w) = .some ops') :
    ops'.map BasicOp.forget = ops.map BasicOp.forget := by
  obtain ⟨ops1, h1, h2⟩ := Option.bind_eq_some_iff.mp h
  exact (setAdvice_forget h2).trans (setAdvice_forget h1)

theorem fillAdvice_forget {op : SeqOp} {cpu : Cpu} (h : op.fillAdvice cpu ops = .some ops') :
    ops'.map BasicOp.forget = ops.map BasicOp.forget := by
  unfold SeqOp.fillAdvice at h
  split at h
  case h_1 | h_2 | h_3 | h_4 => exact setTwo_forget h
  case h_5 | h_6 | h_7 | h_8 | h_9 => exact setAdvice_forget h
  case h_10 =>
    cases h
    rfl

theorem fillInlineAdvice_forget {vs : List U64} (h : fillInlineAdvice ops vs = .some ops') :
    ops'.map BasicOp.forget = ops.map BasicOp.forget := by
  fun_induction fillInlineAdvice ops vs generalizing ops' with
  | case1 =>
    cases h
    rfl
  | case2 | case4 => cases h
  | case3 o v ops w vs ih =>
    obtain ⟨rest, hrest, hpure⟩ := Option.bind_eq_some_iff.mp h
    cases hpure
    exact congrArg (BasicOp.VirtualAdvice o 0 :: ·) (ih hrest)
  | case5 op ops vs _ _ ih =>
    obtain ⟨rest, hrest, hpure⟩ := Option.bind_eq_some_iff.mp h
    cases hpure
    exact congrArg (op.forget :: ·) (ih hrest)

end Filling

/-! ## Traces -/

/-- What the registered builders keep to: they write the virtual registers they
allocate, and shift by the masks they made. -/
def Inlines.Shaped (inlines : Inlines) : Prop :=
  ∀ opcode funct3 funct7 reg, inlines opcode funct3 funct7 = .some reg →
    ∀ operands next, firstVirtualRegister ≤ next → BasicOp.Shaped (reg.buildSequence operands next)

/-- The counter past an instruction, as the emulator's tick leaves it for `trace`. -/
def Instruction.PcPast (i : Instruction) (cpu : Cpu) : Prop :=
  cpu.pc = i.address + BitVec.ofNat 64 (if i.isCompressed then 2 else 4)

namespace BasicInstruction

variable {address : U64} {isCompressed : Bool} {ops : List BasicOp}

/-- The last of a finalized sequence is compressed as the instruction is. -/
theorem finalize_last {j : BasicInstruction} (h : j ∈ (finalize address isCompressed ops).getLast?) :
    j.address = address ∧ j.isCompressed = isCompressed := by
  have hlength : (finalize address isCompressed ops).length = ops.length := List.length_mapIdx ..
  rw [Option.mem_def, List.getLast?_eq_getElem?, hlength, finalize, List.getElem?_mapIdx] at h
  obtain ⟨op, hop, rfl⟩ := Option.map_eq_some_iff.mp h
  obtain ⟨hlt, -⟩ := List.getElem?_eq_some_iff.mp hop
  have hlast : ops.length - 1 + 1 = ops.length := by omega
  refine ⟨rfl, ?_⟩
  simp [hlast]

end BasicInstruction

/-- A run whose shape keeps the masks and the counter for its jump. -/
structure WellRun (is : List BasicInstruction) (cpu : Cpu) : Prop where
  sequenced : BasicOp.Sequenced .none (is.map (·.op))
  pcPast : ∀ j ∈ is.getLast?, .Jump ∈ j.op.circuitFlags → j.PcPast cpu

section Traces

variable {inlines : Inlines} {i : Instruction} {cpu cpu' : Cpu} {cycles : List Cycle} {next : Nat}

theorem wellRun_finalize {ops : List BasicOp} (hseq : BasicOp.Sequenced .none ops) (hpc : i.PcPast cpu) :
    WellRun (BasicInstruction.finalize i.address i.isCompressed ops) cpu where
  sequenced := by
    rw [BasicInstruction.finalize_ops]
    exact hseq
  pcPast j hj _ := by
    obtain ⟨haddress, hcompressed⟩ := BasicInstruction.finalize_last hj
    rw [BasicInstruction.PcPast, BasicInstruction.length, haddress, hcompressed]
    exact hpc

theorem wellRun_single {op : BasicOp} {remaining : Option Nat} {first : Bool} (hregular : op.Regular)
    (hfollows : op.Follows .none) (hpc : i.PcPast cpu) :
    WellRun [⟨op, i.address, remaining, first, i.isCompressed⟩] cpu where
  sequenced := ⟨hregular, hfollows, fun h => absurd rfl h, trivial⟩
  pcPast j hj _ := by
    cases hj
    exact hpc

theorem follows_encodable {op : BasicOp} (h : op.isEncodable) : op.Follows .none := by
  cases op with
  | shiftI | shiftR => exact absurd h Bool.false_ne_true
  | _ => exact fun _ => trivial

theorem follows_withRd {op : BasicOp} {rd : Nat} (h : op.isEncodable) : (op.withRd rd).Follows .none := by
  cases op with
  | shiftI | shiftR => exact absurd h Bool.false_ne_true
  | _ => exact fun _ => trivial

theorem virtual_ne : (.some firstVirtualRegister : Option Nat) ≠ .some 0 := by decide

theorem BasicOp.withRd_rd_ne (op : BasicOp) : (op.withRd firstVirtualRegister).rd ≠ .some 0 := by
  cases op with
  | noOp | branch | assert | align | SD | VirtualSW | FENCE => nofun
  | _ => exact virtual_ne

theorem SeqOp.withRd_rd_ne (op : SeqOp) : (op.withRd firstVirtualRegister).rd ≠ .some 0 := by
  cases op with
  | store => nofun
  | _ => exact virtual_ne

/-- The instructions of a rewriting of an `rd` of `x0`. -/
theorem wellRun_x0 (hdec : i.op.Decoded) (hinlines : inlines.Shaped) (hpc : i.PcPast cpu)
    (hrd : i.op.rd = .some 0) {is : List BasicInstruction}
    (h : i.inlineSequence inlines = .some is) : WellRun is cpu := by
  have hnext : firstVirtualRegister + 1 ≠ 0 := Nat.succ_ne_zero _
  unfold Instruction.inlineSequence at h
  rw [if_pos hrd] at h
  split_ifs at h with hx0 heffects
  · cases hop : i.op with
    | basic op =>
      simp only [Instruction.dispatchInlineSequence, hop] at h
      cases h
      rw [hop] at hx0
      cases op with
      | EBREAK o => exact wellRun_single (.inr (.inr ⟨o, rfl⟩)) (fun _ => trivial) hpc
      | _ => cases hx0
    | seq op =>
      simp only [Instruction.dispatchInlineSequence, hop] at h
      obtain ⟨ops, hseq, hpure⟩ := Option.bind_eq_some_iff.mp h
      cases hpure
      exact wellRun_finalize (SeqOp.sequenced_x0 (hop ▸ hx0) (by decide) hseq) hpc
    | inline op =>
      rw [hop] at hx0
      cases hx0
  · cases hop : i.op with
    | basic op =>
      simp only [Instruction.dispatchInlineSequence, hop, Op.withRd] at h
      cases h
      exact wellRun_single (.inl op.withRd_rd_ne) (follows_withRd (hdec.encodable op hop)) hpc
    | seq op =>
      simp only [Instruction.dispatchInlineSequence, hop, Op.withRd] at h
      obtain ⟨ops, hseq, hpure⟩ := Option.bind_eq_some_iff.mp h
      cases hpure
      exact wellRun_finalize (SeqOp.shaped op.withRd_rd_ne hnext hseq).sequenced hpc
    | inline op =>
      simp only [Instruction.dispatchInlineSequence, hop, Op.withRd] at h
      obtain ⟨reg, hreg, hpure⟩ := Option.bind_eq_some_iff.mp h
      cases hpure
      exact wellRun_finalize (hinlines _ _ _ _ hreg _ _ (Nat.le_succ _)).sequenced hpc
  · cases h
    exact wellRun_single (.inr (.inl ⟨_, rfl⟩)) (fun _ => trivial) hpc

theorem WellRun.tracedWell {is : List BasicInstruction} (h : WellRun is cpu)
    (hrun : BasicInstruction.traceAllRaw is cpu = .some (cycles, cpu')) :
    ∀ c ∈ cycles, ∃ j ∈ is, j.TracedWell c :=
  BasicInstruction.traceAllRaw_tracedWell h.sequenced (fun _ _ _ hnone => nomatch hnone) h.pcPast hrun

theorem tracedWell_finalize {ops : List BasicOp} (hshaped : BasicOp.Shaped ops) (hpc : i.PcPast cpu)
    (hrun : BasicInstruction.traceAll (BasicInstruction.finalize i.address i.isCompressed ops) cpu =
      .some (cycles, cpu')) : ∀ c ∈ cycles, ∃ j : BasicInstruction, j.TracedWell c := by
  intro c hc
  have hrd : ∀ j ∈ BasicInstruction.finalize i.address i.isCompressed ops, j.op.rd ≠ .some 0 :=
    fun j hj => (finalize_all hshaped.rd_ne hj).1
  rw [BasicInstruction.traceAll_eq_raw hrd] at hrun
  obtain ⟨j, -, hwell⟩ := (wellRun_finalize hshaped.sequenced hpc).tracedWell hrun c hc
  exact ⟨j, hwell⟩

theorem AdviceFn.run_pc (f : AdviceFn) {advice : Option (List U64)}
    (h : f.run cpu = .some (advice, cpu')) : cpu'.pc = cpu.pc := by
  induction f generalizing cpu with
  | done values =>
    cases h
    rfl
  | fail => cases h
  | readRegister reg k ih => exact ih _ h
  | loadDoubleword address k ih =>
    obtain ⟨⟨⟨value, read⟩, cpu1⟩, hload, hrest⟩ := Option.bind_eq_some_iff.mp h
    obtain ⟨⟨loaded, mmu⟩, -, hcpu⟩ := Option.bind_eq_some_iff.mp hload
    cases hcpu
    have hkeeps := ih value hrest
    exact hkeeps

/-- Every cycle that `Instruction::trace` emits comes from a regular operation, its mask
in place, and of a jump with the counter past the instruction. -/
theorem trace_tracedWell (hi : i.Decodable) (hinlines : inlines.Shaped) (hpc : i.PcPast cpu)
    (htrace : i.trace inlines cpu = .some (cycles, cpu')) :
    ∀ c ∈ cycles, ∃ j : BasicInstruction, j.TracedWell c := by
  have hnext : firstVirtualRegister ≠ 0 := by decide
  intro c hc
  unfold Instruction.trace at htrace
  split_ifs at htrace with hrd
  · obtain ⟨⟨is, cpu1⟩, hseq, hrun⟩ := Option.bind_eq_some_iff.mp htrace
    obtain ⟨is', his, hpure⟩ := Option.bind_eq_some_iff.mp hseq
    cases hpure
    obtain ⟨j, -, hwell⟩ := (wellRun_x0 hi.decoded hinlines hpc hrd his).tracedWell hrun c hc
    exact ⟨j, hwell⟩
  cases hop : i.op with
  | basic op =>
    simp only [Instruction.traceRaw, hop] at htrace
    have hne : op.rd ≠ .some 0 := fun hzero => hrd (by rw [hop]; exact hzero)
    have hrun : BasicInstruction.traceAllRaw
        [⟨op, i.address, i.virtualSequenceRemaining, i.isFirstInSequence, i.isCompressed⟩] cpu =
        .some (cycles, cpu') := by
      rw [BasicInstruction.traceAllRaw_cons, htrace]
      simp [BasicInstruction.traceAllRaw, Fallible.pure_apply]
    have hwellRun : WellRun
        [⟨op, i.address, i.virtualSequenceRemaining, i.isFirstInSequence, i.isCompressed⟩] cpu :=
      wellRun_single (.inl hne) (follows_encodable (hi.decoded.encodable op hop)) hpc
    obtain ⟨j, -, hwell⟩ := hwellRun.tracedWell hrun c hc
    exact ⟨j, hwell⟩
  | seq op =>
    have hne : op.rd ≠ .some 0 := fun hzero => hrd (by rw [hop]; exact hzero)
    rw [Instruction.traceRaw_seq inlines hop] at htrace
    obtain ⟨ops, hfilled, h⟩ := Option.bind_eq_some_iff.mp htrace
    obtain ⟨ops', hseq, hfill⟩ := Option.bind_eq_some_iff.mp hfilled
    obtain ⟨⟨cs, cpu2⟩, hrun, hpure⟩ := Option.bind_eq_some_iff.mp h
    cases hpure
    have hshaped := (SeqOp.shaped hne hnext hseq).of_forget (fillAdvice_forget hfill)
    have hreserve : (op.reserve cpu).pc = cpu.pc := by
      cases op <;> rfl
    exact tracedWell_finalize hshaped (hreserve.trans hpc) hrun c hc
  | inline op =>
    simp only [Instruction.traceRaw, hop, Fallible.bind_apply, Fallible.lift_apply,
      Option.bind_eq_bind, Option.bind_assoc, Option.bind_some] at htrace
    obtain ⟨reg, hreg, h⟩ := Option.bind_eq_some_iff.mp htrace
    obtain ⟨⟨advice, cpu1⟩, hadvice, h⟩ := Option.bind_eq_some_iff.mp h
    have hshaped := hinlines _ _ _ _ hreg op.operands firstVirtualRegister le_rfl
    have hpast : i.PcPast cpu1 := (reg.buildAdvice op.operands).run_pc hadvice |>.trans hpc
    cases advice with
    | none => exact tracedWell_finalize hshaped hpast h c hc
    | some values =>
      obtain ⟨⟨ops, cpu2⟩, hfilled, h⟩ := Option.bind_eq_some_iff.mp h
      obtain ⟨ops', hfill, hpure⟩ := Option.bind_eq_some_iff.mp hfilled
      cases hpure
      exact tracedWell_finalize (hshaped.of_forget (fillInlineAdvice_forget hfill)) hpast h c hc

/-- **Honest cycles meet the row-local constraints unless they stray.** The row of a cycle
that `Instruction::trace` emits satisfies every constraint that does not mention the next
cycle exactly when the operands of the cycle do not stray. -/
theorem trace_satisfiesLocal_iff {F : Type} [JoltField F] (hF : LargeField F) (hi : i.Decodable)
    (hinlines : inlines.Shaped) (hpc : i.PcPast cpu)
    (htrace : i.trace inlines cpu = .some (cycles, cpu')) {b : BytecodePreprocessing}
    {rows : List Cycle} {t : Nat} {c : Cycle} {row : R1CSCycleInputs} (hc : c ∈ cycles)
    (ht : rows[t]? = .some c) (hrow : R1CSCycleInputs.fromTrace b rows t = .some row) :
    row.SatisfiesLocal F ↔ ¬ c.Strays := by
  obtain ⟨left, right, ll, rl, output, hrowOf⟩ := R1CSCycleInputs.rowOf_fromTrace ht hrow
  obtain ⟨j, cpu1, cpu2, htraced, hregular, hmask, hjump⟩ := trace_tracedWell hi hinlines hpc htrace c hc
  rw [R1CSCycleInputs.satisfiesLocal_iff hF hrowOf.flagsExclusive]
  exact localChecks_iff_strays hregular hmask hjump htraced (address_of_fromTrace ht hrow) hrowOf

end Traces

/-- Bytecode with one instruction, at the start of RAM. -/
def startBytecode : BytecodePreprocessing where
  pcMap := ⟨[.none, .some (1, 0)], by decide, by simp⟩

theorem largeField_rat : LargeField ℚ := fun _ _ hz => Int.cast_eq_zero.mp hz

theorem shaped_none : Inlines.Shaped fun _ _ _ => .none := fun _ _ _ _ h => nomatch h

/-- `addi x5, x6, 1`. -/
theorem trace_satisfiesLocal_iff_addi :
    let cpu := { Cpu.new.writeRegister 6 7 with pc := 0x80000004 }
    let i : Instruction := ⟨.basic (.i .ADDI ⟨5, 6, 1⟩), 0x80000000, .none, false, false⟩
    ∃ c cpu' row, i.trace (fun _ _ _ => .none) cpu = .some ([c], cpu') ∧
      R1CSCycleInputs.fromTrace startBytecode [c] 0 = .some row ∧ row.SatisfiesLocal ℚ := by
  intro cpu i
  have hdec : i.Decodable := ⟨0x00130293, false, by decide⟩
  have hsome : ((i.trace (fun _ _ _ => .none) cpu).bind fun p =>
      R1CSCycleInputs.fromTrace startBytecode p.1 0).isSome := by decide
  have hsteady : ∀ p, i.trace (fun _ _ _ => .none) cpu = .some p →
      ∃ c, p.1 = [c] ∧ c.instruction.op = .i .ADDI ⟨5, 6, 1⟩ := by
    intro p hp
    cases hp
    exact ⟨_, rfl, rfl⟩
  obtain ⟨row, hrow⟩ := Option.isSome_iff_exists.mp hsome
  obtain ⟨⟨cycles, cpu'⟩, htrace, hrow⟩ := Option.bind_eq_some_iff.mp hrow
  obtain ⟨c, hcycles, hop⟩ := hsteady _ htrace
  cases hcycles
  have hpc : i.PcPast cpu := rfl
  refine ⟨c, cpu', row, htrace, hrow, ?_⟩
  refine (trace_satisfiesLocal_iff largeField_rat hdec shaped_none hpc htrace
    (List.mem_singleton.mpr rfl) rfl hrow).mpr ?_
  unfold Cycle.Strays
  rw [hop]
  exact fun hstrays => absurd hstrays.1 (by decide)

/-- `csrrs x0, mscratch, x0` with 1 in `mscratch`: the one cycle is an `ADDI` into `x0`
whose lookup output is 1, while `rd` is written 0. -/
theorem trace_csrrs_x0 :
    let cpu := { Cpu.new.writeRegister mscratchRegister 1 with pc := 0x80000004 }
    let i : Instruction := ⟨.seq (.CSRRS ⟨0, 0, 0x340⟩), 0x80000000, .none, false, false⟩
    i.Decodable ∧ i.PcPast cpu ∧ ∃ c cpu' row,
      i.trace (fun _ _ _ => .none) cpu = .some ([c], cpu') ∧
      R1CSCycleInputs.fromTrace startBytecode [c] 0 = .some row ∧
      ∀ (F : Type) [JoltField F], ¬ row.SatisfiesLocal F := by
  intro cpu i
  have hsome : ((i.trace (fun _ _ _ => .none) cpu).bind fun p =>
      (R1CSCycleInputs.fromTrace startBytecode p.1 0).map fun row =>
        (p.1.length, (r1csConstraints[12]?).map fun n =>
          (n.mentionsNext, n.a.dotProduct row.inputValue 1 * n.b.dotProduct row.inputValue 1))) =
      .some (1, .some (false, (-1 : Int))) := by decide
  obtain ⟨⟨cycles, cpu'⟩, htrace, hrow⟩ := Option.bind_eq_some_iff.mp hsome
  obtain ⟨row, hrow, hvalue⟩ := Option.map_eq_some_iff.mp hrow
  obtain ⟨hlength, hconstraint⟩ := Prod.mk.inj hvalue
  obtain ⟨c, rfl⟩ := List.length_eq_one_iff.mp hlength
  obtain ⟨n, hn, hproduct⟩ := Option.map_eq_some_iff.mp hconstraint
  obtain ⟨hnext, hproduct⟩ := Prod.mk.inj hproduct
  refine ⟨⟨0x34002073, false, by decide⟩, rfl, c, cpu', row, htrace, hrow, ?_⟩
  intro F _ hsatisfies
  have hzero := hsatisfies n (List.mem_of_getElem? hn) hnext
  have hcast := congrArg (fun v : Int => (v : F)) hproduct
  simp only [Int.cast_mul, LC.cast_dotProduct, Int.cast_neg, Int.cast_one] at hcast
  exact absurd (hcast.symm.trans hzero) (neg_ne_zero.mpr one_ne_zero)

end LightningJolt
