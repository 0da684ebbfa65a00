/-
Instructions whose destination is `x0` (`Instruction::inline_sequence` in
`tracer/src/instruction/mod.rs`): traced as a no-op, or with a virtual register
in the place of `x0`. The rewriting keeps what `execute` does, but for the
reservations: a load-reserved does not set one, a store-conditional does not
store.
-/
import LightningJolt.MemoryExpansion

namespace LightningJolt

open Fallible

namespace Op

/-- The instructions but for the inlines, the system instructions and those of
reservations. -/
def isOrdinary : Op → Bool
  | .basic _ => true
  | .seq (.r ..) | .seq (.i ..) | .seq (.load ..) | .seq (.store ..) | .seq (.amo ..)
  | .seq (.advice ..) => true
  | _ => false

def StoresPanicTail (cpu : Cpu) : Op → Prop
  | .seq op => op.StoresPanicTail cpu
  | _ => False

end Op

section Rewriting

variable {cpu cpu' cpuExec : Cpu} {address : U64} {access : RamAccess}

theorem agrees_of_mmu {mmu : Mmu} (h : cpu.mmu ≈ mmu) : CpuAgrees False cpu { cpu with mmu := mmu } :=
  ⟨rfl, iff_of_true h not_false, rfl⟩

theorem agrees_self : CpuAgrees False cpu cpu := agrees_of_mmu (Setoid.refl _)

/-- The result in a virtual register in the place of `x0`. -/
theorem agrees_of_virtual {v : U64} :
    CpuAgrees False (cpu.writeRegister firstVirtualRegister v) cpu where
  registers := Cpu.architectural_virtual cpu v (by decide)
  memory := iff_of_true (Setoid.refl _) not_false
  others := rfl

/-- What has no effect but on `rd`, which is `x0`, has none. -/
theorem exec_x0 {op : BasicOp} (hrd : op.rd = .some 0) (hop : op.hasSideEffects = false)
    (h : op.exec address cpu = .some (access, cpuExec)) : CpuAgrees False cpu cpuExec := by
  cases op with
  | r op o | i op o | u op o | j op o | shiftI op o | shiftR op o | VirtualAdvice o advice
  | VirtualAdviceLen o =>
    have h0 : o.rd = 0 := Option.some.inj hrd
    simp only [BasicOp.exec, writeRd, h0, Cpu.writeRegister_zero, Option.some.injEq,
      Prod.mk.injEq] at h
    rw [← h.2]
    exact agrees_self
  | LD o =>
    have h0 : o.rd = 0 := Option.some.inj hrd
    obtain ⟨⟨⟨value, r⟩, cpu1⟩, hload, hrest⟩ := Option.bind_eq_some_iff.mp h
    obtain ⟨⟨⟨value', r'⟩, mmu⟩, hmmu, heq⟩ := Option.bind_eq_some_iff.mp hload
    cases heq
    cases hrest
    change CpuAgrees False cpu ({ cpu with mmu := mmu }.writeRegister o.rd value)
    rw [h0, Cpu.writeRegister_zero]
    exact agrees_of_mmu ((Mmu.loadDoubleword_reads (BitVec.isLt _)).some hmmu).2.2
  | noOp | VirtualLW o => cases h
  | branch op o | assert op o | align op o | SD o | VirtualSW o | FENCE => cases hrd
  | JAL o | JALR o | VirtualAdviceLoad o | VirtualHostIo o | EBREAK o => cases hop

/-- The rest runs with another destination, which a program does not see. -/
theorem exec_withRd {op : BasicOp} {access' : RamAccess} (hrd : op.rd = .some 0)
    (hop : op.hasSideEffects = true)
    (h' : (op.withRd firstVirtualRegister).exec address cpu = .some (access', cpu'))
    (h : op.exec address cpu = .some (access, cpuExec)) : CpuAgrees False cpu' cpuExec := by
  cases op with
  | JAL o | JALR o =>
    have h0 : o.rd = 0 := Option.some.inj hrd
    simp only [BasicOp.withRd, BasicOp.exec, h0, Cpu.writeRegister_zero, Option.some.injEq,
      Prod.mk.injEq] at h h'
    rw [← h.2, ← h'.2]
    refine ⟨?_, iff_of_true (Setoid.refl _) not_false, rfl⟩
    exact Cpu.architectural_virtual cpu _ (by decide)
  | VirtualAdviceLoad o =>
    have h0 : o.rd = 0 := Option.some.inj hrd
    obtain ⟨⟨value, tape⟩, hread, hwrite⟩ := Option.bind_eq_some_iff.mp h
    obtain ⟨⟨value', tape'⟩, hread', hwrite'⟩ := Option.bind_eq_some_iff.mp h'
    cases hread.symm.trans hread'
    simp only [writeRd, h0, Cpu.writeRegister_zero, Option.some.injEq, Prod.mk.injEq] at hwrite hwrite'
    rw [← hwrite.2, ← hwrite'.2]
    exact agrees_of_virtual
  | VirtualHostIo o =>
    cases h.symm.trans h'
    exact agrees_self
  | EBREAK o =>
    cases h.symm.trans h'
    exact agrees_self
  | SD o | VirtualSW o | branch op o => cases hrd
  | _ => cases hop

/-- The no-op that takes an instruction's place. -/
theorem eq_of_trace_nop {isCompressed : Bool} {cycles : List Cycle}
    (h : BasicInstruction.traceAllRaw [.nop address isCompressed] cpu = .some (cycles, cpu')) :
    cpu' = cpu := by
  have hrun : (BasicInstruction.traceAllRaw [.nop address isCompressed] cpu).map Prod.snd =
      runOps address [.i .ADDI ⟨0, 0, 0⟩] cpu :=
    BasicInstruction.traceAllRaw_run (by simp [BasicInstruction.nop])
  rw [h] at hrun
  simp only [runOps_i, runOps_nil, Cpu.writeRegister_zero, Option.map_some,
    Option.some.injEq] at hrun
  exact hrun

/-- One instruction, raw. -/
theorem traceAllRaw_one {i : BasicInstruction} {cycles : List Cycle}
    (h : BasicInstruction.traceAllRaw [i] cpu = .some (cycles, cpu')) :
    ∃ access, i.op.exec i.address cpu = .some (access, cpu') := by
  have hrun : (BasicInstruction.traceAllRaw [i] cpu).map Prod.snd = runOps i.address [i.op] cpu :=
    BasicInstruction.traceAllRaw_run (by simp)
  rw [h, runOps_cons] at hrun
  obtain ⟨⟨access, cpu1⟩, hexec, heq⟩ := Option.bind_eq_some_iff.mp hrun.symm
  cases heq
  exact ⟨access, hexec⟩

theorem runOps_adviceLoad {o : FormatJ} {ops : List BasicOp}
    (h : runOps address (.VirtualAdviceLoad o :: ops) cpu = .some cpu') :
    ∃ value tape, cpu.adviceTape.read o.imm.toNat = .some (value, tape) ∧
      runOps address ops ({ cpu with adviceTape := tape }.writeRegister o.rd value) = .some cpu' := by
  rw [runOps_cons] at h
  obtain ⟨⟨access, cpu1⟩, hexec, h⟩ := Option.bind_eq_some_iff.mp h
  obtain ⟨⟨value, tape⟩, hread, hwrite⟩ := Option.bind_eq_some_iff.mp hexec
  cases hwrite
  exact ⟨value, tape, hread, h⟩

/-- An advice load into a virtual register takes the same bytes off the tape. -/
theorem run_adviceLoad {op : AdviceOp} {o : FormatAdviceLoadI} (hrd : o.rd = 0)
    (hrun : runOps address (op.inlineSequence { o with rd := firstVirtualRegister }) cpu = .some cpu')
    (hexec : (SeqOp.advice op o).exec address cpu = .some (access, cpuExec)) :
    CpuAgrees False cpu' cpuExec := by
  obtain ⟨⟨value, tape⟩, hread, hwrite⟩ := Option.bind_eq_some_iff.mp hexec
  simp only [writeRd, hrd, Cpu.writeRegister_zero, Option.some.injEq, Prod.mk.injEq] at hwrite
  rw [← hwrite.2]
  have hvirtual : 32 ≤ firstVirtualRegister := by decide
  cases op with
  | AdviceLD =>
    obtain ⟨value', tape', hread', hrun⟩ := runOps_adviceLoad hrun
    cases hread.symm.trans hread'
    rw [runOps_nil, Option.some.injEq] at hrun
    rw [← hrun]
    exact agrees_of_virtual
  | AdviceLB | AdviceLH | AdviceLW =>
    simp only [AdviceOp.inlineSequence, AdviceLB.inlineSequence, AdviceLH.inlineSequence,
      AdviceLW.inlineSequence, adviceLoadSequence, SLLI.inlineSequence, SRAI.inlineSequence,
      rightShiftISequence, List.flatten_cons, List.flatten_nil, List.cons_append,
      List.nil_append] at hrun
    obtain ⟨value', tape', hread', hrun⟩ := runOps_adviceLoad hrun
    cases hread.symm.trans hread'
    simp only [runOps_i, runOps_shiftI, runOps_nil, Option.some.injEq] at hrun
    rw [← hrun]
    refine ⟨?_, iff_of_true (Setoid.refl _) not_false, rfl⟩
    simp only [Cpu.architectural_virtual _ _ hvirtual]

/-- A traced instruction that writes `x0` is its rewriting, traced raw. -/
theorem trace_x0 {inlines : Inlines} {i : Instruction} {cycles : List Cycle}
    (hrd : i.op.rd = .some 0) (h : i.trace inlines cpu = .some (cycles, cpu')) :
    ∃ seq, i.inlineSequence inlines = .some seq ∧
      BasicInstruction.traceAllRaw seq cpu = .some (cycles, cpu') := by
  rw [Instruction.trace, if_pos hrd] at h
  obtain ⟨⟨seq, cpu0⟩, hlift, h⟩ := Option.bind_eq_some_iff.mp h
  obtain ⟨seq', hseq, heq⟩ := Option.bind_eq_some_iff.mp hlift
  cases heq
  exact ⟨seq, hseq, h⟩

/-- The rewriting of an instruction with a sequence and side effects. -/
theorem inlineSequence_x0 {inlines : Inlines} {i : Instruction} {op : SeqOp}
    {seq : List BasicInstruction} (hi : i.op = .seq op) (hrd : i.op.rd = .some 0)
    (hhandles : i.op.handlesX0 = false) (hside : i.op.hasSideEffects = true)
    (h : i.inlineSequence inlines = .some seq) :
    ∃ ops, (op.withRd firstVirtualRegister).inlineSequence (firstVirtualRegister + 1) = .some ops ∧
      seq = BasicInstruction.finalize i.address i.isCompressed ops := by
  rw [Instruction.inlineSequence, if_pos hrd, hhandles, if_neg Bool.false_ne_true, hside, if_pos rfl,
    Instruction.dispatchInlineSequence] at h
  simp only [hi, Op.withRd] at h
  obtain ⟨ops, hops, heq⟩ := Option.bind_eq_some_iff.mp h
  exact ⟨ops, hops, (Option.some.inj heq).symm⟩

/-- The sequence of an instruction, of one address, traced raw. -/
theorem run_of_traceAllRaw {ops : List BasicOp} {isCompressed : Bool} {cycles : List Cycle}
    (h : BasicInstruction.traceAllRaw (BasicInstruction.finalize address isCompressed ops) cpu =
      .some (cycles, cpu')) : runOps address ops cpu = .some cpu' := by
  have hrun : (BasicInstruction.traceAllRaw (BasicInstruction.finalize address isCompressed ops)
      cpu).map Prod.snd = runOps address ops cpu := BasicInstruction.traceAllRaw_finalize
  rw [← hrun, h]
  rfl

/-- What it runs in the place of its own sequence. -/
theorem trace_x0_run {inlines : Inlines} {i : Instruction} {op : SeqOp} {cycles : List Cycle}
    (hi : i.op = .seq op) (hrd : op.rd = .some 0) (hhandles : (Op.seq op).handlesX0 = false)
    (hside : (Op.seq op).hasSideEffects = true) (h : i.trace inlines cpu = .some (cycles, cpu')) :
    ∃ ops, (op.withRd firstVirtualRegister).inlineSequence (firstVirtualRegister + 1) = .some ops ∧
      runOps i.address ops cpu = .some cpu' := by
  rw [← hi] at hhandles hside
  have hx0 : i.op.rd = .some 0 := by
    rw [hi]
    exact hrd
  obtain ⟨seq, hseq, htrace⟩ := trace_x0 hx0 h
  obtain ⟨ops, hops, rfl⟩ := inlineSequence_x0 hi hx0 hhandles hside hseq
  exact ⟨ops, hops, run_of_traceAllRaw htrace⟩

end Rewriting

/-- **The rewriting of `x0` keeps the meaning.** Where an instruction with `x0`
for its destination traces and executes, the two leave the same registers,
program counter and advice tape, and the same memory unless it stores behind
the first byte of the panic doubleword while the flag is not set. -/
theorem trace_x0_agrees (inlines : Inlines) {i : Instruction} (hop : i.op.isOrdinary)
    (hrd : i.op.rd = .some 0) (h1 : ∀ k ∈ i.op.normalize.rs1, k < 32)
    (h2 : ∀ k ∈ i.op.normalize.rs2, k < 32) {cpu cpu' cpuExec : Cpu} {cycles : List Cycle}
    {access : RamAccess} (htrace : i.trace inlines cpu = .some (cycles, cpu'))
    (hexec : i.execute cpu = .some (access, cpuExec)) :
    CpuAgrees (i.op.StoresPanicTail cpu) cpu' cpuExec := by
  obtain ⟨seq, hseq, htrace⟩ := trace_x0 hrd htrace
  rw [Instruction.inlineSequence, if_pos hrd] at hseq
  obtain ⟨op, address, remaining, first, isCompressed⟩ := i
  simp only at hop hrd h1 h2 hseq hexec
  cases op with
  | inline op => cases hop
  | basic op =>
    by_cases hbreak : ∃ o, op = .EBREAK o
    · obtain ⟨o, rfl⟩ := hbreak
      cases hseq
      obtain ⟨access', htrace⟩ := traceAllRaw_one htrace
      cases hexec.symm.trans htrace
      exact agrees_self
    have hx0 : (Op.basic op).handlesX0 = false := by
      cases op <;> first | rfl | exact absurd ⟨_, rfl⟩ hbreak
    rw [hx0, if_neg Bool.false_ne_true] at hseq
    cases hside : op.hasSideEffects with
    | true =>
      rw [Op.hasSideEffects, hside, if_pos rfl] at hseq
      cases hseq
      obtain ⟨access', htrace⟩ := traceAllRaw_one htrace
      exact exec_withRd hrd hside htrace hexec
    | false =>
      rw [Op.hasSideEffects, hside, if_neg Bool.false_ne_true] at hseq
      cases hseq
      cases eq_of_trace_nop htrace
      exact exec_x0 hrd hside hexec
  | seq op =>
    cases op with
    | r op o | i op o =>
      have h0 : o.rd = 0 := Option.some.inj hrd
      cases hseq
      cases eq_of_trace_nop htrace
      simp only [Instruction.execute, SeqOp.exec, writeRd, h0, Cpu.writeRegister_zero,
        Option.some.injEq, Prod.mk.injEq] at hexec
      rw [← hexec.2]
      exact agrees_self
    | load op o =>
      have h0 : o.rd = 0 := Option.some.inj hrd
      cases hseq
      cases eq_of_trace_nop htrace
      obtain ⟨⟨⟨value, r⟩, cpu1⟩, hread, hrest⟩ := Option.bind_eq_some_iff.mp hexec
      obtain ⟨⟨⟨value', r'⟩, mmu⟩, hmmu, heq⟩ := Option.bind_eq_some_iff.mp hread
      cases heq
      cases hrest
      change CpuAgrees False cpu ({ cpu with mmu := mmu }.writeRegister o.rd value)
      rw [h0, Cpu.writeRegister_zero]
      exact agrees_of_mmu (LoadOp.read_some (BitVec.isLt _) hmmu).2.2
    | store op o => cases hrd
    | amo op width o =>
      have h0 : o.rd = 0 := Option.some.inj hrd
      have hlt : firstVirtualRegister < firstVirtualRegister + 1 := by decide
      have hnext : 32 ≤ firstVirtualRegister + 1 := by decide
      cases hseq
      refine agrees_of_run (d := firstVirtualRegister) rfl h1 h2 (fun rd hmem => ?_) hlt hnext rfl
        (run_of_traceAllRaw htrace) hexec
      cases hmem
      exact .inr ⟨h0, by decide⟩
    | advice op o =>
      have h0 : o.rd = 0 := Option.some.inj hrd
      cases hseq
      exact run_adviceLoad h0 (run_of_traceAllRaw htrace) hexec
    | _ => cases hop

/-- An atomic that drops what it read. -/
theorem trace_x0_agrees_amoaddw : ∃ cycles cpu' access cpuExec,
    Instruction.trace (fun _ _ _ => .none) ⟨.seq (.amo .ADD .word ⟨0, 5, 6⟩), 0, .none, false, false⟩
      twoDwordCpu = .some (cycles, cpu') ∧
    Instruction.execute ⟨.seq (.amo .ADD .word ⟨0, 5, 6⟩), 0, .none, false, false⟩ twoDwordCpu =
      .some (access, cpuExec) ∧
    CpuAgrees (Op.StoresPanicTail twoDwordCpu (.seq (.amo .ADD .word ⟨0, 5, 6⟩))) cpu' cpuExec := by
  have htrace : (Instruction.trace (fun _ _ _ => .none)
      ⟨.seq (.amo .ADD .word ⟨0, 5, 6⟩), 0, .none, false, false⟩ twoDwordCpu).isSome := by
    decide +kernel
  have hexec : (Instruction.execute
      ⟨.seq (.amo .ADD .word ⟨0, 5, 6⟩), 0, .none, false, false⟩ twoDwordCpu).isSome := by
    decide +kernel
  obtain ⟨⟨cycles, cpu'⟩, htrace⟩ := Option.isSome_iff_exists.mp htrace
  obtain ⟨⟨access, cpuExec⟩, hexec⟩ := Option.isSome_iff_exists.mp hexec
  exact ⟨cycles, cpu', access, cpuExec, htrace, hexec, trace_x0_agrees _ rfl rfl
    (by rintro k ⟨⟩; decide) (by rintro k ⟨⟩; decide) htrace hexec⟩

/-! ## Store-conditional -/

section StoreConditional

variable {address : U64} {cpu cpu' : Cpu} {o : FormatR}

/-- The bits of `v` at an address are what memory holds there. -/
def Mmu.Holds (m : Mmu) (n ea : Nat) (v : U64) : Prop := ∀ j < n, leByte v j = m.byte (ea + j)

/-- What the sequence of a store-conditional to `x0` leaves: it stores back
what it read, whatever is reserved. -/
structure StoresBack (width : ReservationWidth) (o : FormatR) (cpu cpu' : Cpu) : Prop where
  aligned : (cpu.x.read o.rs1).toNat % 8 + width.numBytes ≤ 8
  memory : ∃ v, cpu.mmu.Holds width.numBytes (cpu.x.read o.rs1).toNat v ∧
    cpu.mmu.BlendStored width.numBytes (cpu.x.read o.rs1).toNat v cpu'.mmu

theorem run_SCD_x0 (h1 : o.rs1 < 32)
    (h : runOps address (SCD.inlineSequence { o with rd := firstVirtualRegister }
      (firstVirtualRegister + 1)) cpu = .some cpu') : StoresBack .doubleword o cpu cpu' := by
  simp (disch := omega) only [SCD.inlineSequence, scPrelude, firstVirtualRegister,
    reservationDRegister, reservationWRegister, List.flatten_cons, List.flatten_nil,
    List.cons_append, List.nil_append, runOps_advice, runOps_i, runOps_r, runOps_assert,
    Cpu.writeRegister_x, Registers.read_write_self, Registers.read_write_ne, Registers.read_zero,
    eval_addi, eval_mul, zero_mul] at h
  split_ifs at h
  obtain ⟨-, mmu, hsame, h⟩ := runOps_LD h
  simp (disch := omega) only [runOps_r, Cpu.writeRegister_x, Cpu.writeRegister_mmu,
    Registers.read_write_self, Registers.read_write_ne, eval_mul, eval_add, mul_zero,
    add_zero, ld_zero] at h hsame
  obtain ⟨h8, hst, mmu', hsame', h⟩ := runOps_SD h
  simp (disch := omega) only [Cpu.writeRegister_x, Cpu.writeRegister_mmu,
    Registers.read_write_self, Registers.read_write_ne, add_zero] at h8 hst hsame'
  simp only [runOps_i, runOps_nil, Option.some.injEq] at h
  subst h
  have hst' := (Mmu.fieldStorable_congr hsame).mpr hst
  have hstored := Setoid.trans (Mmu.storedField_congr hsame fun hram =>
    Mmu.deviceStorable_of_field hst' hram) hsame'
  refine ⟨by simp only [ReservationWidth.numBytes]; omega, cpu.mmu.dword _, fun j hj =>
    Mmu.leByte_dword _ _ hj, ?_⟩
  exact Mmu.BlendStored.dword h8 hst' hstored

theorem run_SCW_x0 (h1 : o.rs1 < 32)
    (h : runOps address (SCW.inlineSequence { o with rd := firstVirtualRegister }
      (firstVirtualRegister + 1)) cpu = .some cpu') : StoresBack .word o cpu cpu' := by
  simp (disch := omega) only [SCW.inlineSequence, scPrelude, firstVirtualRegister,
    reservationDRegister, reservationWRegister, List.flatten_cons, List.flatten_nil,
    List.cons_append, List.nil_append, runOps_advice, runOps_i, runOps_r, runOps_assert,
    Cpu.writeRegister_x, Registers.read_write_self, Registers.read_write_ne, Registers.read_zero,
    eval_addi, eval_mul, zero_mul, add_zero] at h
  split_ifs at h
  rw [runOps_append] at h
  obtain ⟨cpu1, hload, h⟩ := Option.bind_eq_some_iff.mp h
  obtain ⟨h4, hsame, hmem, hkeep⟩ := run_LW (by simp only; omega) (by simp only; omega) hload
  simp (disch := omega) only [Cpu.writeRegister_x, Cpu.writeRegister_mmu,
    Registers.read_write_ne, add_zero] at h4 hsame hmem
  have hflag : cpu1.x.read 32 = 0 := by
    rw [hkeep 32 (by omega) (by simp only; omega)]
    simp (disch := omega) only [Cpu.writeRegister_x, Registers.read_write_self]
  have hs1 : cpu1.x.read o.rs1 = cpu.x.read o.rs1 := by
    rw [hkeep o.rs1 (by omega) (by simp only; omega)]
    simp (disch := omega) only [Cpu.writeRegister_x, Registers.read_write_ne]
  simp (disch := omega) only [runOps_i, runOps_r, Cpu.writeRegister_x, Registers.read_write_self,
    Registers.read_write_ne, hmem, hflag, eval_mul, eval_add, eval_addi, mul_zero, add_zero] at h
  rw [runOps_append] at h
  obtain ⟨cpu2, hstore, h⟩ := Option.bind_eq_some_iff.mp h
  obtain ⟨-, hstored, -⟩ := run_storeWord (by simp only; omega) (by decide) hstore
  simp (disch := omega) only [Cpu.writeRegister_x, Cpu.writeRegister_mmu,
    Registers.read_write_self, Registers.read_write_ne, add_zero, hs1] at hstored
  simp only [runOps_i, runOps_nil, Option.some.injEq] at h
  subst h
  refine ⟨by simp only [ReservationWidth.numBytes]; omega, _, fun j hj => leByte_word _ h4 hj, ?_⟩
  exact hstored.congr hsame

/-- Memory after it, for a doubleword that holds what is stored there. -/
theorem StoresBack.byte {width : ReservationWidth} (h : StoresBack width o cpu cpu')
    (hplain : cpu.mmu.Plain (cpu.x.read o.rs1).toNat) (b : Nat) :
    cpu'.mmu.byte b = cpu.mmu.byte b := by
  obtain ⟨hin, v, hv, hstored⟩ := h
  rw [hstored.byte hin hplain]
  by_cases hb : (cpu.x.read o.rs1).toNat ≤ b ∧ b < (cpu.x.read o.rs1).toNat + width.numBytes
  · rw [if_pos hb, hv _ (by omega), Nat.add_sub_cancel' hb.1]
  · rw [if_neg hb]

/-- The store of a store-conditional that is executed. -/
theorem writeConditional_byte {width : ReservationWidth} {m m' : Mmu} {ea : Nat} {value : U64}
    {w : RamWrite} (hlt : ea < 2 ^ 64) (hin : ea % 8 + width.numBytes ≤ 8)
    (hst : m.FieldStorable 8 (ea / 8 * 8)) (hplain : m.Plain ea)
    (h : writeConditional width ea value m = .some (w, m')) (b : Nat) :
    m'.byte b = if ea ≤ b ∧ b < ea + width.numBytes then leByte value (b - ea) else m.byte b := by
  have hn : 0 < width.numBytes := by cases width <;> decide
  have hstored : m.storedField width.numBytes ea
      ((value.setWidth (8 * width.numBytes)).setWidth 64) ≈ m' := by
    cases width with
    | word => exact (Mmu.storeWord_stored hlt h).2.2
    | doubleword =>
      have heq : (value.setWidth (8 * 8)).setWidth 64 = value := by simp
      rw [ReservationWidth.numBytes, heq]
      exact ((Mmu.storeDoubleword_acts hlt value).some h).2.2
  have hblend : m.BlendStored width.numBytes ea value
      (m.storedField 8 (ea / 8 * 8) (m.dword (ea / 8 * 8) ^^^ ((m.dword (ea / 8 * 8) ^^^
        (value <<< (8 * (ea % 8)))) &&& (Mmu.fieldMask width.numBytes <<< (8 * (ea % 8)))))) :=
    Mmu.blendStored hin (Setoid.refl _) hst (Setoid.refl _)
  have hsame := ((hblend.truncate rfl (by omega)).equiv_iff hn hin hstored).mpr hplain.not_panicTail
  rw [← Mmu.byte_congr hsame, hblend.byte hin hplain]

end StoreConditional

/-- **A store-conditional to `x0` never stores when traced.** It writes back
what it reads, whatever is reserved. So memory agrees with that after
`execute` if and only if nothing is reserved, or what is to be stored is
there already. -/
theorem trace_sc_x0 (inlines : Inlines) {width : ReservationWidth} {o : FormatR} {i : Instruction}
    (hi : i.op = .seq (.sc width o)) (hrd : o.rd = 0) (h1 : o.rs1 < 32) {cpu cpu' cpuExec : Cpu}
    (hplain : cpu.mmu.Plain (cpu.x.read o.rs1).toNat) {cycles : List Cycle} {access : RamAccess}
    (htrace : i.trace inlines cpu = .some (cycles, cpu'))
    (hexec : i.execute cpu = .some (access, cpuExec)) :
    cpu'.mmu.byte = cpu.mmu.byte ∧
      (cpu'.mmu.byte = cpuExec.mmu.byte ↔
        cpu.hasReservation (cpu.x.read o.rs1) width = true →
          cpu.mmu.Holds width.numBytes (cpu.x.read o.rs1).toNat (cpu.x.read o.rs2)) := by
  obtain ⟨ops, hops, hrun⟩ := trace_x0_run hi (congrArg _ hrd) rfl rfl htrace
  have hback : StoresBack width o cpu cpu' := by
    cases width with
    | word =>
      cases hops
      exact run_SCW_x0 h1 hrun
    | doubleword =>
      cases hops
      exact run_SCD_x0 h1 hrun
  have hkeeps : cpu'.mmu.byte = cpu.mmu.byte := funext (hback.byte hplain)
  refine ⟨hkeeps, ?_⟩
  rw [hkeeps]
  obtain ⟨hin, -, -, hst, -⟩ := hback
  have hexec : (SeqOp.sc width o).exec i.address cpu = .some (access, cpuExec) := by
    rw [← hexec, Instruction.execute, hi]
  simp only [SeqOp.exec, Fallible.bind_apply, Fallible.get_apply, Option.bind_eq_bind,
    Option.bind_some] at hexec
  by_cases hres : cpu.hasReservation (cpu.x.read o.rs1) width = true
  · rw [if_pos hres] at hexec
    obtain ⟨⟨w, cpu1⟩, hwrite, hrest⟩ := Option.bind_eq_some_iff.mp hexec
    obtain ⟨⟨w', mmu⟩, hmmu, heq⟩ := Option.bind_eq_some_iff.mp hwrite
    cases heq
    cases hrest
    have hbyte := writeConditional_byte (BitVec.isLt _) hin hst hplain hmmu
    change cpu.mmu.byte = mmu.byte ↔ _
    constructor
    · intro heq _ j hj
      rw [heq, hbyte, if_pos (by omega), Nat.add_sub_cancel_left]
    · intro hholds
      funext b
      rw [hbyte]
      by_cases hb : (cpu.x.read o.rs1).toNat ≤ b ∧ b < (cpu.x.read o.rs1).toNat + width.numBytes
      · rw [if_pos hb, hholds hres _ (by omega), Nat.add_sub_cancel' hb.1]
      · rw [if_neg hb]
  · rw [if_neg hres] at hexec
    cases hexec
    exact iff_of_true rfl fun h => absurd h hres

/-- A reserved word that the trace does not store. -/
theorem trace_sc_x0_word : ∃ cycles cpu' access cpuExec,
    Instruction.trace (fun _ _ _ => .none) ⟨.seq (.sc .word ⟨0, 5, 6⟩), 0, .none, false, false⟩
      (twoDwordCpu.setReservation 0x80000004 .word) = .some (cycles, cpu') ∧
    Instruction.execute ⟨.seq (.sc .word ⟨0, 5, 6⟩), 0, .none, false, false⟩
      (twoDwordCpu.setReservation 0x80000004 .word) = .some (access, cpuExec) ∧
    cpu'.mmu.byte = twoDwordCpu.mmu.byte ∧ cpu'.mmu.byte ≠ cpuExec.mmu.byte := by
  have htrace : (Instruction.trace (fun _ _ _ => .none)
      ⟨.seq (.sc .word ⟨0, 5, 6⟩), 0, .none, false, false⟩
      (twoDwordCpu.setReservation 0x80000004 .word)).isSome := by decide +kernel
  have hexec : (Instruction.execute ⟨.seq (.sc .word ⟨0, 5, 6⟩), 0, .none, false, false⟩
      (twoDwordCpu.setReservation 0x80000004 .word)).isSome := by decide
  obtain ⟨⟨cycles, cpu'⟩, htrace⟩ := Option.isSome_iff_exists.mp htrace
  obtain ⟨⟨access, cpuExec⟩, hexec⟩ := Option.isSome_iff_exists.mp hexec
  have hplain : (twoDwordCpu.setReservation 0x80000004 .word).mmu.Plain
      ((twoDwordCpu.setReservation 0x80000004 .word).x.read 5).toNat := fun _ h => nomatch h
  obtain ⟨hkeeps, hiff⟩ := trace_sc_x0 (fun _ _ _ => .none) rfl rfl (by decide) hplain htrace hexec
  refine ⟨cycles, cpu', access, cpuExec, htrace, hexec, hkeeps, fun heq => ?_⟩
  have hfirst := hiff.mp heq (by decide) 0 (by decide)
  exact absurd hfirst (by decide)

end LightningJolt
