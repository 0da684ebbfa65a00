/-
Store-conditional under any advice (`tracer/src/instruction/scw.rs`, `scd.rs`):
whatever a prover takes for the success flag, a sequence whose assertions hold
either stores under a matching reservation or leaves memory as it was.
-/
import LightningJolt.StoreSequences

namespace LightningJolt

namespace ReservationWidth

def numBytes : ReservationWidth → Nat
  | .word => 4
  | .doubleword => 8

/-- The virtual register the sequences keep a reservation of the width in. -/
def register : ReservationWidth → Nat
  | .word => reservationWRegister
  | .doubleword => reservationDRegister

end ReservationWidth

section Outcomes

variable (width : ReservationWidth) (o : FormatR) (cpu cpu' : Cpu)

/-- The store took place, under a reservation of the address. -/
structure ScSucceeds : Prop where
  rd : cpu'.x.read o.rd = 0
  reserved : cpu.x.read width.register = cpu.x.read o.rs1
  memory : ∀ b, cpu'.mmu.byte b =
    if (cpu.x.read o.rs1).toNat ≤ b ∧ b < (cpu.x.read o.rs1).toNat + width.numBytes then
      leByte (cpu.x.read o.rs2) (b - (cpu.x.read o.rs1).toNat)
    else cpu.mmu.byte b

structure ScFails : Prop where
  rd : cpu'.x.read o.rd = 1
  memory : ∀ b, cpu'.mmu.byte b = cpu.mmu.byte b

/-- One of the two took place, and otherwise only the reservations are gone. -/
structure ScSound : Prop where
  outcome : Xor (ScSucceeds width o cpu cpu') (ScFails o cpu cpu')
  reservationW : cpu'.x.read reservationWRegister = 0
  reservationD : cpu'.x.read reservationDRegister = 0
  others : ∀ k < 32, k ≠ o.rd → cpu'.x.read k = cpu.x.read k

variable {width o cpu cpu'}

theorem outcome_xor (h : ScSucceeds width o cpu cpu' ∨ ScFails o cpu cpu') :
    Xor (ScSucceeds width o cpu cpu') (ScFails o cpu cpu') := by
  have hexclusive : ScSucceeds width o cpu cpu' → ScFails o cpu cpu' → False := by
    intro hs hf
    have hrd := hs.rd.symm.trans hf.rd
    exact absurd hrd (by decide)
  rcases h with hs | hf
  · exact .inl ⟨hs, hexclusive hs⟩
  · exact .inr ⟨hf, fun hs => hexclusive hs hf⟩

end Outcomes

/-! ## The success flag -/

theorem forgeAdvice_nil (ops : List BasicOp) : forgeAdvice [] ops = ops := by
  induction ops with
  | nil => rfl
  | cons op ops ih =>
    rw [forgeAdvice, ih]
    exact fun _ _ _ _ h => nomatch h

theorem eq_zero_or_one {s : U64} (h : s ≤ 1) : s = 0 ∨ s = 1 := by
  have hle : s.toNat ≤ 1 := h
  have hcases : s.toNat = 0 ∨ s.toNat = 1 := by omega
  rcases hcases with h0 | h1
  · exact .inl (BitVec.eq_of_toNat_eq h0)
  · exact .inr (BitVec.eq_of_toNat_eq h1)

section Runs

variable {o : FormatR} {address : U64} {cpu cpu' : Cpu} {s : U64}

theorem writeRegister_twice (cpu : Cpu) (k : Nat) (v w : U64) :
    (cpu.writeRegister k v).writeRegister k w = cpu.writeRegister k w := by
  have hx : (cpu.x.write k v).write k w = cpu.x.write k w := by
    ext r
    simp only [Registers.read_write]
    split <;> rfl
  simp only [Cpu.writeRegister, hx]

/-- The prelude: the flag is a bit, and set only under a reservation. -/
theorem run_scPrelude {reservation : Nat} {ops : List BasicOp} (hr : reservation < 40)
    (h1 : o.rs1 < 32)
    (h : runOps address (forgeAdvice [s] (scPrelude reservation o.rs1 40 41 ++ ops)) cpu =
      .some cpu') :
    s ≤ 1 ∧ s * (cpu.x.read reservation - cpu.x.read o.rs1) = 0 ∧
      ∃ v, runOps address ops ((cpu.writeRegister 40 s).writeRegister 41 v) = .some cpu' := by
  simp (disch := omega) only [scPrelude, List.cons_append, List.nil_append, forgeAdvice,
    forgeAdvice_nil, runOps_advice, runOps_i, runOps_r, runOps_assert, Cpu.writeRegister_x,
    Registers.read_write_self, Registers.read_write_ne, Registers.read_zero, eval_addi, eval_sub,
    eval_mul, zero_add, holds_assertLTE, holds_assertEQ] at h
  split_ifs at h with hle heq
  rw [writeRegister_twice, writeRegister_twice] at h
  exact ⟨hle, heq, _, h⟩

/-- The reservation is the address, where the flag is set. -/
theorem reserved_of_flag {x y : U64} (h : s * (x - y) = 0) (hs : s = 1) : x = y := by
  rw [hs, one_mul] at h
  exact sub_eq_zero.mp h

/-- What the flag says of the outcome, of a run that blends by it. -/
theorem outcome_of_flag {width : ReservationWidth} (hle : s ≤ 1)
    (hreserved : s * (cpu.x.read width.register - cpu.x.read o.rs1) = 0)
    (hrd : cpu'.x.read o.rd = s ^^^ 1)
    (hmemory : ∀ b, cpu'.mmu.byte b =
      if s = 1 ∧ (cpu.x.read o.rs1).toNat ≤ b ∧ b < (cpu.x.read o.rs1).toNat + width.numBytes then
        leByte (cpu.x.read o.rs2) (b - (cpu.x.read o.rs1).toNat)
      else cpu.mmu.byte b) :
    Xor (ScSucceeds width o cpu cpu') (ScFails o cpu cpu') := by
  refine outcome_xor ?_
  rcases eq_zero_or_one hle with rfl | rfl
  · refine .inr ⟨hrd, fun b => ?_⟩
    rw [hmemory, if_neg (fun h => absurd h.1 (by decide))]
  · refine .inl ⟨hrd, reserved_of_flag hreserved rfl, fun b => ?_⟩
    rw [hmemory]
    exact if_congr (and_iff_right rfl) rfl rfl

/-- `LD` without an offset. -/
theorem ld_zero (x : U64) : x + BitVec.signExtend 64 (BitVec.setWidth 32 (0 : U64)) = x :=
  add_zero x

/-- The value a conditional store stores. -/
theorem blend_flag (mem value : U64) (hs : s = 0 ∨ s = 1) :
    mem + (value - mem) * s = if s = 1 then value else mem := by
  rcases hs with rfl | rfl
  · rw [if_neg (by decide), mul_zero, add_zero]
  · rw [if_pos rfl, mul_one, add_sub_cancel]

/-- The bytes after the blend is stored: those of `rs2` or the old ones. -/
theorem blend_byte {ea n b : Nat} {mem value : U64} {old : U8}
    (hold : ea ≤ b ∧ b < ea + n → leByte mem (b - ea) = old) :
    (if ea ≤ b ∧ b < ea + n then leByte (if s = 1 then value else mem) (b - ea) else old) =
      if s = 1 ∧ ea ≤ b ∧ b < ea + n then leByte value (b - ea) else old := by
  by_cases hin : ea ≤ b ∧ b < ea + n
  · rw [if_pos hin]
    by_cases hs : s = 1
    · rw [if_pos hs, if_pos ⟨hs, hin⟩]
    · rw [if_neg hs, if_neg (fun h => hs h.1), hold hin]
  · rw [if_neg hin, if_neg (fun h => hin h.2)]

theorem run_SCD (ho : o.Architectural) (hrd : o.rd ≠ 0)
    (h : runOps address (forgeAdvice [s] (SCD.inlineSequence o firstVirtualRegister)) cpu =
      .some cpu') (hplain : cpu.mmu.Plain (cpu.x.read o.rs1).toNat) :
    ScSound .doubleword o cpu cpu' := by
  obtain ⟨hd, h1, h2⟩ := ho
  simp only [SCD.inlineSequence, firstVirtualRegister, List.flatten_cons, List.flatten_nil,
    List.append_nil] at h
  obtain ⟨hle, hreserved, v, h⟩ := run_scPrelude (by decide) h1 h
  obtain ⟨-, mmu, hsame, h⟩ := runOps_LD h
  simp (disch := omega) only [runOps_r, Cpu.writeRegister_x, Cpu.writeRegister_mmu,
    Registers.read_write_self, Registers.read_write_ne, eval_sub, eval_mul, eval_add] at h hsame
  obtain ⟨h8, hst, mmu', hsame', h⟩ := runOps_SD h
  simp (disch := omega) only [Cpu.writeRegister_x, Cpu.writeRegister_mmu,
    Registers.read_write_self, Registers.read_write_ne, ld_zero, add_zero, blend_flag _ _ (eq_zero_or_one hle)]
    at h8 hst hsame'
  simp (disch := omega) only [runOps_i, runOps_nil, Cpu.writeRegister_x, Registers.read_write_self,
    Registers.read_write_ne, Option.some.injEq, reservationDRegister, reservationWRegister] at h
  subst h
  refine ⟨outcome_of_flag hle hreserved ?_ fun b => ?_, ?_, ?_, fun k hk hne => ?_⟩
  · simp (disch := omega) only [Cpu.writeRegister_x, Registers.read_write_self]
    rfl
  · change mmu'.byte b = _
    rw [← Mmu.byte_congr hsame',
      Mmu.byte_storedField h8 hst ((Mmu.plain_congr hsame).mp hplain), ← Mmu.byte_congr hsame]
    exact blend_byte fun hin => by
      rw [Mmu.leByte_dword _ _ (by omega), Nat.add_sub_cancel' hin.1]
  · simp (disch := omega) only [Cpu.writeRegister_x, Registers.read_write_self,
      Registers.read_write_ne, Registers.read_zero, eval_addi, add_zero, reservationWRegister]
  · simp (disch := omega) only [Cpu.writeRegister_x, Registers.read_write_self,
      Registers.read_write_ne, Registers.read_zero, eval_addi, add_zero, reservationDRegister]
  · simp (disch := omega) only [Cpu.writeRegister_x, Registers.read_write_ne]

/-- The bytes of a word that a load sign-extended. -/
theorem leByte_word (m : Mmu) {ea i : Nat} (h4 : ea % 4 = 0) (hi : i < 4) :
    leByte ((m.field 32 ea).signExtend 64) i = m.byte (ea + i) := by
  have hext : leByte ((m.field 32 ea).signExtend 64) i = leByte ((m.field 32 ea).setWidth 64) i := by
    refine BitVec.eq_of_getLsbD_eq fun b hb => ?_
    rw [getLsbD_leByte _ _ hb, getLsbD_leByte _ _ hb, BitVec.getLsbD_signExtend,
      BitVec.getLsbD_setWidth, if_pos (by omega)]
  rw [hext, Mmu.field, leByte_field (n := 4) rfl hi (by omega), Mmu.leByte_dword _ _ (by omega),
    show ea / 8 * 8 + (ea % 8 + i) = ea + i by omega]

theorem run_SCW (ho : o.Architectural) (hrd : o.rd ≠ 0)
    (h : runOps address (forgeAdvice [s] (SCW.inlineSequence o firstVirtualRegister)) cpu =
      .some cpu') (hplain : cpu.mmu.Plain (cpu.x.read o.rs1).toNat) :
    ScSound .word o cpu cpu' := by
  obtain ⟨hd, h1, h2⟩ := ho
  simp only [SCW.inlineSequence, firstVirtualRegister, List.flatten_cons, List.flatten_nil,
    List.append_nil] at h
  obtain ⟨hle, hreserved, v, h⟩ := run_scPrelude (by decide) h1 h
  simp (disch := omega) only [List.cons_append, List.nil_append, runOps_i, Cpu.writeRegister_x,
    Registers.read_write_self, Registers.read_write_ne, eval_addi, add_zero,
    reservationWRegister] at h
  -- The load keeps the flag, now in the reservation register.
  rw [runOps_append] at h
  obtain ⟨cpu1, hload, h⟩ := Option.bind_eq_some_iff.mp h
  obtain ⟨h4, hsame, hmem, hkeep⟩ := run_LW (by simp only; omega) (by simp only; omega) hload
  simp (disch := omega) only [Cpu.writeRegister_x, Cpu.writeRegister_mmu,
    Registers.read_write_ne, add_zero] at h4 hsame hmem
  have hflag : cpu1.x.read 32 = s := by
    rw [hkeep 32 (by omega) (by simp only; omega)]
    simp only [Cpu.writeRegister_x, Registers.read_write_self _ _ (show 32 ≠ 0 by decide)]
  have harch : ∀ k < 32, cpu1.x.read k = cpu.x.read k := by
    intro k hk
    rw [hkeep k (by omega) (by simp only; omega)]
    simp (disch := omega) only [Cpu.writeRegister_x, Registers.read_write_ne]
  simp (disch := omega) only [runOps_i, runOps_r,
    Cpu.writeRegister_x, Registers.read_write_self, Registers.read_write_ne, hmem, hflag,
    harch _ h2, eval_sub, eval_mul, eval_add, eval_addi, add_zero,
    blend_flag _ _ (eq_zero_or_one hle), reservationDRegister] at h
  rw [runOps_append] at h
  obtain ⟨cpu2, hstore, h⟩ := Option.bind_eq_some_iff.mp h
  obtain ⟨-, hbytes, hkeep2⟩ := run_SW (by simp only; omega) (by decide) hstore
  simp (disch := omega) only [Cpu.writeRegister_x, Cpu.writeRegister_mmu,
    Registers.read_write_self, Registers.read_write_ne, add_zero, harch _ h1] at hbytes
  simp (disch := omega) only [runOps_i, runOps_nil, Cpu.writeRegister_x, Registers.read_write_ne,
    Option.some.injEq] at h
  subst h
  have hkeep32 : cpu2.x.read 32 = s := by
    rw [hkeep2 32 (by omega)]
    simp (disch := omega) only [Cpu.writeRegister_x, Registers.read_write_ne, hflag]
  refine ⟨outcome_of_flag hle hreserved ?_ fun b => ?_, ?_, ?_, fun k hk hne => ?_⟩
  · simp (disch := omega) only [Cpu.writeRegister_x, Registers.read_write_self,
      Registers.read_write_ne, hkeep32]
    rfl
  · change cpu2.mmu.byte b = _
    rw [hbytes ((Mmu.plain_congr hsame).mp hplain), ← Mmu.byte_congr hsame]
    refine blend_byte fun hin => ?_
    rw [leByte_word _ h4 (by omega), Nat.add_sub_cancel' hin.1]
  · simp (disch := omega) only [Cpu.writeRegister_x, Registers.read_write_self,
      Registers.read_write_ne, Registers.read_zero, eval_addi, add_zero, reservationWRegister]
  · simp (disch := omega) only [Cpu.writeRegister_x, Registers.read_write_self,
      Registers.read_zero, eval_addi, add_zero, reservationDRegister]
  · simp (disch := omega) only [Cpu.writeRegister_x, Registers.read_write_ne]
    rw [hkeep2 k (by omega)]
    simp (disch := omega) only [Cpu.writeRegister_x, Registers.read_write_ne]
    exact harch k hk

end Runs

/-! ## Traces -/

section Traces

variable {width : ReservationWidth} {o : FormatR} {address : U64} {cpu cpu' : Cpu} {s : U64}

theorem storeConditional_rd_ne (hrd : o.rd ≠ 0) {ops : List BasicOp}
    (hops : (SeqOp.sc width o).inlineSequence firstVirtualRegister = .some ops) :
    ∀ b ∈ ops, b.rd ≠ .some 0 := by
  cases width <;> cases hops <;>
    simp [SCW.inlineSequence, SCD.inlineSequence, scPrelude, LW.inlineSequence, SW.inlineSequence,
      loadDword, SLLI.inlineSequence, SLL.inlineSequence, SRL.inlineSequence, SRLI.inlineSequence,
      rightShiftSequence, rightShiftISequence, firstVirtualRegister, reservationWRegister,
      reservationDRegister, BasicOp.rd, BasicOp.normalize, hrd]

/-- **Store-conditional is sound under any advice.** Whatever flag a prover
puts in the `VirtualAdvice` instruction, a sequence that runs through, to a
doubleword that holds what is stored to it, has stored under a reservation or
left memory as it was; and the reservations are gone. -/
theorem storeConditional_sound (ho : o.Architectural) (hrd : o.rd ≠ 0) {ops : List BasicOp}
    (hops : (SeqOp.sc width o).inlineSequence firstVirtualRegister = .some ops)
    (hplain : cpu.mmu.Plain (cpu.x.read o.rs1).toNat) {isCompressed : Bool} {cycles : List Cycle}
    (h : BasicInstruction.traceAll (BasicInstruction.finalize address isCompressed
      (forgeAdvice [s] ops)) cpu = .some (cycles, cpu')) :
    ScSound width o cpu cpu' := by
  have hrun : runOps address (forgeAdvice [s] ops) cpu = .some cpu' := by
    rw [← BasicInstruction.traceAll_finalize
      (forgeAdvice_rd_ne (storeConditional_rd_ne hrd hops)), h]
    rfl
  cases width with
  | word =>
    cases hops
    exact run_SCW ho hrd hrun hplain
  | doubleword =>
    cases hops
    exact run_SCD ho hrd hrun hplain

end Traces

/-- A machine with a doubleword of memory, reserved for a word in its upper
half by the address in `x5`. -/
def reservedCpu : Cpu :=
  { Cpu.new with
    x := ((Registers.initial.write 5 0x80000004).write 6 0xfedcba9876543210).write
      reservationWRegister 0x80000004
    mmu := { Mmu.new with memory := MemoryData.empty.initWithCapacity 8 } }

/-- A store of a word, its result in the register of the address. -/
theorem storeConditional_sound_word : ∃ cycles cpu',
    BasicInstruction.traceAll (BasicInstruction.finalize 0 false (forgeAdvice [1]
      (SCW.inlineSequence ⟨5, 5, 6⟩ firstVirtualRegister))) reservedCpu = .some (cycles, cpu') ∧
    ScSound .word ⟨5, 5, 6⟩ reservedCpu cpu' := by
  have hsome : (BasicInstruction.traceAll (BasicInstruction.finalize 0 false (forgeAdvice [1]
      (SCW.inlineSequence ⟨5, 5, 6⟩ firstVirtualRegister))) reservedCpu).isSome := by
    decide +kernel
  obtain ⟨⟨cycles, cpu'⟩, hrun⟩ := Option.isSome_iff_exists.mp hsome
  have hplain : reservedCpu.mmu.Plain (reservedCpu.x.read 5).toNat := fun _ h => nomatch h
  exact ⟨cycles, cpu', hrun, storeConditional_sound
    ⟨by decide, by decide, by decide⟩ (by decide) rfl hplain hrun⟩

/-- A machine with a device of empty regions, `x5` the address of its panic
doubleword. -/
def panicCpu : Cpu :=
  { Cpu.new with
    x := Registers.initial.write 5 0x7ffffff0
    mmu := { Mmu.new with joltDevice := JoltDevice.new {
      maxInputSize := 0, maxTrustedAdviceSize := 0, maxUntrustedAdviceSize := 0, maxOutputSize := 0
      stackSize := 0, heapSize := 0, programSize := .some 0 } } }

set_option maxRecDepth 20000 in
/-- A store that fails still writes back what it read, which sets the panic
flag where the address is that of the flag. -/
theorem storeConditional_panic : ¬ ∀ (width : ReservationWidth) (o : FormatR) (address : U64)
    (isCompressed : Bool) (cpu cpu' : Cpu) (s : U64) (ops : List BasicOp) (cycles : List Cycle),
    o.Architectural → o.rd ≠ 0 →
    (SeqOp.sc width o).inlineSequence firstVirtualRegister = .some ops →
    BasicInstruction.traceAll (BasicInstruction.finalize address isCompressed
      (forgeAdvice [s] ops)) cpu = .some (cycles, cpu') →
    ScSound width o cpu cpu' := by
  intro h
  have hbyte : (BasicInstruction.traceAll (BasicInstruction.finalize 0 false (forgeAdvice [0]
      (SCD.inlineSequence ⟨7, 5, 6⟩ firstVirtualRegister))) panicCpu).map
        (fun p => (p.2.x.read 7, p.2.mmu.byte 0x7ffffff0)) = .some (1, 1) := by decide +kernel
  obtain ⟨⟨cycles, cpu'⟩, hrun, heq⟩ := Option.map_eq_some_iff.mp hbyte
  obtain ⟨hrd, hpanic⟩ := Prod.mk.injEq _ _ _ _ ▸ heq
  have hsound := h .doubleword ⟨7, 5, 6⟩ 0 false panicCpu cpu' 0 _ cycles
    ⟨by decide, by decide, by decide⟩ (by decide) rfl hrun
  have hbefore : panicCpu.mmu.byte 0x7ffffff0 = 0 := by decide
  rcases hsound.outcome with ⟨hs, -⟩ | ⟨hf, -⟩
  · exact absurd (hrd.symm.trans hs.rd) (by decide)
  · exact absurd (hpanic.symm.trans ((hf.memory _).trans hbefore)) (by decide)

end LightningJolt
