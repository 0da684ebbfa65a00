/-
The instructions that access memory, traced and executed
(`tracer/src/instruction`): the sequence of aligned doubleword accesses leaves
what `exec` does, also where `x0` is the destination and the sequence writes
another register instead.
-/
import LightningJolt.MemorySequences

namespace LightningJolt

open Fallible

/-! ## Execution -/

section Execution

variable {address : U64} {cpu cpuExec : Cpu} {access : RamAccess} {m m' : Mmu} {ea : Nat}

theorem aligned_of_some {α : Type} {n : Nat} {x : MmuM α} {p : α}
    (h : (do guard (ea % n = 0); x : MmuM α) m = .some (p, m')) : ea % n = 0 := by
  by_contra hne
  rw [guard, if_neg hne] at h
  cases h

theorem Mmu.field_byte (m : Mmu) (ea : Nat) : m.field 8 ea = m.byte ea := by
  have hbyte : (fromLeBytes ((List.range 1).map fun i => m.byte (ea + i))).setWidth 8 =
      m.field 8 ea := Mmu.field_bytes m rfl (by omega)
  rw [← hbyte]
  simp [fromLeBytes]

/-- What a load read is the field it names. -/
theorem LoadOp.read_some {op : LoadOp} {p : U64 × RamRead} (hlt : ea < 2 ^ 64)
    (h : op.read ea m = .some (p, m')) :
    ea % op.numBytes = 0 ∧ p.1 = op.value m ea ∧ m ≈ m' := by
  cases op with
  | LB | LBU =>
    obtain ⟨⟨⟨b, r⟩, mmu⟩, hload, heq⟩ := Option.bind_eq_some_iff.mp h
    cases heq
    obtain ⟨-, hvalue, hsame⟩ := (Mmu.load_reads ea).some hload
    cases hvalue
    rw [LoadOp.value, Mmu.field_byte]
    exact ⟨Nat.mod_one ea, rfl, hsame⟩
  | LH | LHU =>
    obtain ⟨⟨⟨w, r⟩, mmu⟩, hload, heq⟩ := Option.bind_eq_some_iff.mp h
    cases heq
    have h2 : ea % 2 = 0 := aligned_of_some hload
    obtain ⟨-, hvalue, hsame⟩ := (Mmu.loadHalfword_reads hlt h2).some hload
    cases hvalue
    exact ⟨h2, rfl, hsame⟩
  | LW | LWU =>
    obtain ⟨⟨⟨w, r⟩, mmu⟩, hload, heq⟩ := Option.bind_eq_some_iff.mp h
    cases heq
    have h4 : ea % 4 = 0 := aligned_of_some hload
    obtain ⟨-, hvalue, hsame⟩ := (Mmu.loadWord_reads hlt h4).some hload
    cases hvalue
    exact ⟨h4, rfl, hsame⟩

theorem StoreOp.write_some {op : StoreOp} {value : U64} {w : RamWrite} (hlt : ea < 2 ^ 64)
    (h : op.write ea value m = .some (w, m')) :
    ea % op.numBytes = 0 ∧
      m.storedField op.numBytes ea ((value.setWidth (8 * op.numBytes)).setWidth 64) ≈ m' := by
  cases op with
  | SB => exact ⟨Nat.mod_one ea, (Mmu.store_stored h).2⟩
  | SH =>
    obtain ⟨h2, -, hsame⟩ := Mmu.storeHalfword_stored hlt h
    exact ⟨h2, hsame⟩
  | SW =>
    obtain ⟨h4, -, hsame⟩ := Mmu.storeWord_stored hlt h
    exact ⟨h4, hsame⟩

theorem AmoOp.updateW_some {op : AmoOp} {value original : U64} (hlt : ea < 2 ^ 64)
    (h : op.update .word ea value m = .some (original, m')) :
    original = (m.field 32 ea).signExtend 64 ∧
      m.storedField 4 ea ((op.eval (m.field 32 ea) (lowWord value)).setWidth 64) ≈ m' := by
  obtain ⟨⟨⟨d, r⟩, mmu⟩, hload, h⟩ := Option.bind_eq_some_iff.mp h
  obtain ⟨⟨w, mmu'⟩, hstore, heq⟩ := Option.bind_eq_some_iff.mp h
  cases heq
  obtain ⟨⟨h4, -⟩, hvalue, hsame⟩ :=
    (Mmu.loadWord_reads hlt (aligned_of_some hload)).some hload
  cases hvalue
  obtain ⟨-, hst, hsame'⟩ := Mmu.storeWord_stored hlt hstore
  have hst' := (Mmu.fieldStorable_congr hsame).mpr hst
  exact ⟨rfl, Setoid.trans (Mmu.storedField_congr hsame fun hram =>
    Mmu.deviceStorable_of_field hst' hram) hsame'⟩

theorem AmoOp.updateD_some {op : AmoOp} {value original : U64} (hlt : ea < 2 ^ 64)
    (h : op.update .doubleword ea value m = .some (original, m')) :
    original = m.dword ea ∧ m.storedField 8 ea (op.eval (m.dword ea) value) ≈ m' := by
  obtain ⟨⟨⟨d, r⟩, mmu⟩, hload, h⟩ := Option.bind_eq_some_iff.mp h
  obtain ⟨⟨w, mmu'⟩, hstore, heq⟩ := Option.bind_eq_some_iff.mp h
  cases heq
  obtain ⟨-, hvalue, hsame⟩ := (Mmu.loadDoubleword_reads hlt).some hload
  cases hvalue
  obtain ⟨⟨-, hst⟩, -, hsame'⟩ := (Mmu.storeDoubleword_acts hlt _).some hstore
  have hst' := (Mmu.fieldStorable_congr hsame).mpr hst
  exact ⟨rfl, Setoid.trans (Mmu.storedField_congr hsame fun hram =>
    Mmu.deviceStorable_of_field hst' hram) hsame'⟩

end Execution

/-! ## Agreement -/

namespace SeqOp

def accessesMemory : SeqOp → Bool
  | .load .. | .store .. | .amo .. => true
  | _ => false

/-- The instruction stores behind the first byte of the panic doubleword, the
flag not yet set. -/
def StoresPanicTail (cpu : Cpu) : SeqOp → Prop
  | .store _ o => cpu.mmu.PanicTail (cpu.x.read o.rs1 + o.imm).toNat
  | .amo _ _ o => cpu.mmu.PanicTail (cpu.x.read o.rs1).toNat
  | _ => False

end SeqOp

section Agreement

variable {address : U64} {cpu cpu' cpuExec : Cpu} {access : RamAccess} {next : Nat}

/-- `cpu'`, after a sequence, agrees with `cpuExec`, after the instruction: in
memory if and only if the instruction does not store where `tail` says. -/
structure CpuAgrees (tail : Prop) (cpu' cpuExec : Cpu) : Prop where
  registers : cpu'.architectural = cpuExec.architectural
  memory : cpu'.mmu ≈ cpuExec.mmu ↔ ¬ tail
  others : cpu' = { cpuExec with x := cpu'.x, mmu := cpu'.mmu }

/-- Where a sequence writes the result: to `rd`, or to a virtual register in
the place of `x0`. -/
def ResultRegister (rd d : Nat) : Prop := d = rd ∧ rd ≠ 0 ∨ rd = 0 ∧ 32 ≤ d

theorem ResultRegister.ne_zero {rd d : Nat} (h : ResultRegister rd d) : d ≠ 0 := by
  rcases h with ⟨rfl, h0⟩ | ⟨-, h32⟩
  · exact h0
  · omega

theorem architectural_of_framed {rd d : Nat} {mmu : Mmu} {value : U64} (hnext : 32 ≤ next)
    (hd : ResultRegister rd d) (hvalue : cpu'.x.read d = value)
    (hf : Framed next (.some d) cpu cpu') :
    cpu'.architectural = ({ cpu with mmu := mmu }.writeRegister rd value).architectural := by
  funext k
  have hk := k.isLt
  change cpu'.x.read k = (cpu.x.write rd value).read k
  rcases hd with ⟨rfl, h0⟩ | ⟨rfl, h32⟩
  · by_cases hkd : (k : Nat) = d
    · rw [hkd, hvalue, Registers.read_write_self _ _ h0]
    · rw [Registers.read_write_ne _ _ hkd]
      exact hf.others k (by omega) (by simpa using hkd)
  · rw [Registers.write_zero]
    exact hf.others k (by omega) (by simp; omega)

/-- A sequence, its result perhaps in a virtual register, and the instruction. -/
theorem agrees_of_run {op : SeqOp} {d : Nat} {ops : List BasicOp} (hop : op.accessesMemory)
    (h1 : ∀ k ∈ op.normalize.rs1, k < 32) (h2 : ∀ k ∈ op.normalize.rs2, k < 32)
    (hd : ∀ rd ∈ op.normalize.rd, ResultRegister rd d) (hlt : d < next) (hnext : 32 ≤ next)
    (hops : (op.withRd d).inlineSequence next = .some ops)
    (hrun : runOps address ops cpu = .some cpu')
    (hexec : op.exec address cpu = .some (access, cpuExec)) :
    CpuAgrees (op.StoresPanicTail cpu) cpu' cpuExec := by
  cases op with
  | load op o =>
    have hr1 : o.rs1 < 32 := h1 o.rs1 rfl
    have hrd := hd o.rd rfl
    cases hops
    obtain ⟨⟨⟨value, r⟩, cpu1⟩, hread, hrest⟩ := Option.bind_eq_some_iff.mp hexec
    obtain ⟨⟨⟨value', r'⟩, mmu⟩, hmmu, heq⟩ := Option.bind_eq_some_iff.mp hread
    cases heq
    cases hrest
    obtain ⟨haligned, hvalue, hsame⟩ := LoadOp.read_some (BitVec.isLt _) hmmu
    obtain ⟨hsame', hvalue', hframe⟩ := run_load (o := { o with rd := d }) hlt hrd.ne_zero
      haligned hrun
    refine ⟨architectural_of_framed hnext hrd (hvalue'.trans hvalue.symm) hframe, ?_, ?_⟩
    · exact iff_of_true (Setoid.trans (Setoid.symm hsame') hsame) not_false
    · rw [hframe.frame]
      rfl
  | store op o =>
    have hr2 : o.rs2 < 32 := h2 o.rs2 rfl
    cases hops
    obtain ⟨⟨w, cpu1⟩, hwrite, hrest⟩ := Option.bind_eq_some_iff.mp hexec
    obtain ⟨⟨w', mmu⟩, hmmu, heq⟩ := Option.bind_eq_some_iff.mp hwrite
    cases heq
    cases hrest
    obtain ⟨haligned, hsame⟩ := StoreOp.write_some (BitVec.isLt _) hmmu
    obtain ⟨hmem, hframe⟩ := run_store (by omega) (by omega) haligned hrun
    refine ⟨funext fun k => hframe.others k (by omega) (by simp), ?_, ?_⟩
    · cases op <;>
        exact (hmem.truncate rfl (by decide)).equiv_iff (by decide)
          (by rw [StoreOp.numBytes] at haligned ⊢; omega) hsame
    · rw [hframe.frame]
  | amo op width o =>
    have hr1 : o.rs1 < 32 := h1 o.rs1 rfl
    have hr2 : o.rs2 < 32 := h2 o.rs2 rfl
    have hrd := hd o.rd rfl
    cases hops
    obtain ⟨⟨original, cpu1⟩, hupdate, hrest⟩ := Option.bind_eq_some_iff.mp hexec
    obtain ⟨⟨original', mmu⟩, hmmu, heq⟩ := Option.bind_eq_some_iff.mp hupdate
    cases heq
    cases hrest
    cases width with
    | word =>
      obtain ⟨hvalue, hsame⟩ := AmoOp.updateW_some (BitVec.isLt _) hmmu
      obtain ⟨h4, hmem, hvalue', hframe⟩ := run_amoW (o := { o with rd := d }) hlt hrd.ne_zero
        (by simp only; omega) (by simp only; omega) hrun
      refine ⟨architectural_of_framed hnext hrd (hvalue'.trans hvalue.symm) hframe, ?_, ?_⟩
      · exact hmem.equiv_iff (by decide) (by simp only at h4 ⊢; omega) hsame
      · rw [hframe.frame]
        rfl
    | doubleword =>
      obtain ⟨hvalue, hsame⟩ := AmoOp.updateD_some (BitVec.isLt _) hmmu
      obtain ⟨h8, hmem, hvalue', hframe⟩ := run_amoD (o := { o with rd := d }) hrd.ne_zero
        (by simp only; omega) (by simp only; omega) hrun
      refine ⟨architectural_of_framed hnext hrd (hvalue'.trans hvalue.symm) hframe, ?_, ?_⟩
      · exact iff_of_true (Setoid.trans (Setoid.symm hmem) hsame)
          (Mmu.not_panicTail_of_aligned h8)
      · rw [hframe.frame]
        rfl
  | _ => exact absurd hop (by simp [SeqOp.accessesMemory])

/-! ## Traces -/

/-- No operation of a memory sequence writes `x0`, where the instruction does not. -/
theorem memory_rd_ne {op : SeqOp} (hop : op.accessesMemory) (h0 : .some 0 ≠ op.rd) {ops : List BasicOp}
    (hops : op.inlineSequence firstVirtualRegister = .some ops) : ∀ b ∈ ops, b.rd ≠ .some 0 := by
  cases op with
  | load op o =>
    have hrd : o.rd ≠ 0 := fun h => h0 (congrArg _ h.symm)
    cases op <;> cases hops <;>
      simp [LoadOp.inlineSequence, LB.inlineSequence, LBU.inlineSequence, LH.inlineSequence,
        LHU.inlineSequence, LW.inlineSequence, LWU.inlineSequence, loadSequence, loadDword,
        SLLI.inlineSequence, SLL.inlineSequence, SRL.inlineSequence, SRLI.inlineSequence,
        SRAI.inlineSequence, rightShiftSequence, rightShiftISequence, firstVirtualRegister,
        BasicOp.rd, BasicOp.normalize, hrd]
  | store op o =>
    cases op <;> cases hops <;>
      simp [StoreOp.inlineSequence, SB.inlineSequence, SH.inlineSequence, SW.inlineSequence,
        storeSequence, loadDword, SLLI.inlineSequence, SLL.inlineSequence, SRLI.inlineSequence,
        rightShiftISequence, firstVirtualRegister, BasicOp.rd, BasicOp.normalize]
  | amo op width o =>
    have hrd : o.rd ≠ 0 := fun h => h0 (congrArg _ h.symm)
    cases width <;> cases op <;> cases hops <;>
      simp [AmoOp.inlineSequence, AMOADDW.inlineSequence, AMOANDW.inlineSequence,
        AMOORW.inlineSequence, AMOXORW.inlineSequence, AMOSWAPW.inlineSequence,
        AMOMAXW.inlineSequence, AMOMINW.inlineSequence, AMOMAXUW.inlineSequence,
        AMOMINUW.inlineSequence, AMOADDD.inlineSequence, AMOANDD.inlineSequence,
        AMOORD.inlineSequence, AMOXORD.inlineSequence, AMOSWAPD.inlineSequence,
        AMOMAXD.inlineSequence, AMOMIND.inlineSequence, AMOMAXUD.inlineSequence,
        AMOMINUD.inlineSequence, amoArithW, amoSelectW, amoArithD, amoSelectD, amoPre64, amoPost64,
        SLLI.inlineSequence, SLL.inlineSequence, SRL.inlineSequence, SRLI.inlineSequence,
        rightShiftSequence, rightShiftISequence, firstVirtualRegister, BasicOp.rd,
        BasicOp.normalize, hrd]
  | _ => exact absurd hop (by simp [SeqOp.accessesMemory])

/-- **The memory expansions equal their instructions.** Where the sequence of a
load, a store or an atomic and its `exec` both run through, they leave the
same registers, and the same memory unless the instruction stores behind the
first byte of the panic doubleword while the flag is not set. -/
theorem memoryExpansion_agrees {op : SeqOp} (hop : op.accessesMemory) (hw : op.Writes)
    {ops : List BasicOp} (hops : op.inlineSequence firstVirtualRegister = .some ops)
    {isCompressed : Bool} {cycles : List Cycle}
    (htrace : BasicInstruction.traceAll (BasicInstruction.finalize address isCompressed ops) cpu =
      .some (cycles, cpu'))
    (hexec : op.exec address cpu = .some (access, cpuExec)) :
    CpuAgrees (op.StoresPanicTail cpu) cpu' cpuExec := by
  obtain ⟨h1, h2, hrd⟩ := hw
  have hne : .some 0 ≠ op.rd := fun h => (hrd 0 h.symm).2 rfl
  have hrun : runOps address ops cpu = .some cpu' := by
    rw [← BasicInstruction.traceAll_finalize (memory_rd_ne hop hne hops), htrace]
    rfl
  have hnext : 32 ≤ firstVirtualRegister := by decide
  refine agrees_of_run (d := op.rd.getD 0) hop h1 h2 (fun rd hmem => ?_) ?_ hnext ?_ hrun hexec
  · have heq : op.rd = .some rd := hmem
    rw [heq]
    exact .inl ⟨rfl, (hrd rd hmem).2⟩
  · cases hrd' : op.rd with
    | none => decide
    | some rd => exact Nat.lt_trans (hrd rd hrd').1 (by decide)
  · rw [← hops]
    cases op <;> rfl

end Agreement

/-- A machine with two doublewords of memory, `x5` the address of the upper
half of the first. -/
def twoDwordCpu : Cpu :=
  { Cpu.new with
    x := (Registers.initial.write 5 0x80000004).write 6 0xfedcba9876543210
    mmu := { Mmu.new with memory := MemoryData.empty.initWithCapacity 16 } }

/-- The smaller of two words, in the upper half of a doubleword, with every
operand but the address in one register. -/
theorem memoryExpansion_agrees_amominw : ∃ cycles cpu' access cpuExec,
    BasicInstruction.traceAll (BasicInstruction.finalize 0 false
      (AMOMINW.inlineSequence ⟨6, 5, 6⟩ firstVirtualRegister)) twoDwordCpu = .some (cycles, cpu') ∧
    SeqOp.exec 0 (.amo .MIN .word ⟨6, 5, 6⟩) twoDwordCpu = .some (access, cpuExec) ∧
    CpuAgrees (SeqOp.StoresPanicTail twoDwordCpu (.amo .MIN .word ⟨6, 5, 6⟩)) cpu' cpuExec := by
  have htrace : (BasicInstruction.traceAll (BasicInstruction.finalize 0 false
      (AMOMINW.inlineSequence ⟨6, 5, 6⟩ firstVirtualRegister)) twoDwordCpu).isSome := by
    decide +kernel
  have hexec : (SeqOp.exec 0 (.amo .MIN .word ⟨6, 5, 6⟩) twoDwordCpu).isSome := by decide +kernel
  obtain ⟨⟨cycles, cpu'⟩, htrace⟩ := Option.isSome_iff_exists.mp htrace
  obtain ⟨⟨access, cpuExec⟩, hexec⟩ := Option.isSome_iff_exists.mp hexec
  exact ⟨cycles, cpu', access, cpuExec, htrace, hexec, memoryExpansion_agrees rfl
    ⟨by rintro k ⟨⟩; decide, by rintro k ⟨⟩; decide, by rintro k ⟨⟩; decide⟩ rfl htrace hexec⟩

end LightningJolt
