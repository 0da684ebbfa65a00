/-
The reservation of the load-reserveds over whole runs. The emulator keeps it in
fields of its own, which the store-conditionals take their advice from; the
sequences keep it in virtual registers, which they check the advice against.
The two agree until a load-reserved or a store-conditional discards its result,
which the rewriting of `x0` hides from the emulator.
-/
import LightningJolt.StoreConditional
import LightningJolt.TraceConsistency
import LightningJolt.ZeroRegister

namespace LightningJolt

/-! ## What leaves reservations alone -/

/-- The reservation is the same, of the emulator and of the sequences. -/
structure SameReservation (cpu cpu' : Cpu) : Prop where
  reserved : cpu'.reserved = cpu.reserved
  registers : ∀ width : ReservationWidth, cpu'.x.read width.register = cpu.x.read width.register

namespace SameReservation

variable {cpu cpu1 cpu' : Cpu}

theorem refl (cpu : Cpu) : SameReservation cpu cpu := ⟨rfl, fun _ => rfl⟩

theorem trans (h : SameReservation cpu cpu1) (h' : SameReservation cpu1 cpu') : SameReservation cpu cpu' :=
  ⟨h'.reserved.trans h.reserved, fun width => (h'.registers width).trans (h.registers width)⟩

theorem of_silent {α : Type} {x : CpuM α} (hx : Silent x) {a : α} (h : x cpu = .some (a, cpu')) :
    SameReservation cpu cpu' := by
  obtain ⟨hregs, -, hreserved⟩ := hx.run h
  exact ⟨hreserved, fun width => by rw [hregs]⟩

end SameReservation

theorem virtual_ne_register (width : ReservationWidth) : firstVirtualRegister ≠ width.register := by
  cases width <;> decide

namespace BasicOp

/-- The operation does not write a reservation register. -/
def sparesReservation (op : BasicOp) : Prop := ∀ width : ReservationWidth, op.rd ≠ .some width.register

variable {op : BasicOp} {address : U64} {cpu cpu' : Cpu} {access : RamAccess}

theorem exec_reserved (h : op.exec address cpu = .some (access, cpu')) : cpu'.reserved = cpu.reserved := by
  cases op with
  | noOp | VirtualLW | VirtualSW => cases h
  | LD o =>
    obtain ⟨⟨⟨value, r⟩, cpu1⟩, hload, hrest⟩ := Option.bind_eq_some_iff.mp h
    obtain ⟨⟨loaded, mmu⟩, -, heq⟩ := Option.bind_eq_some_iff.mp hload
    cases heq
    cases hrest
    rfl
  | SD o =>
    obtain ⟨⟨w, cpu1⟩, hstore, hrest⟩ := Option.bind_eq_some_iff.mp h
    obtain ⟨⟨w', mmu⟩, -, heq⟩ := Option.bind_eq_some_iff.mp hstore
    cases heq
    cases hrest
    rfl
  | VirtualAdviceLoad o =>
    obtain ⟨⟨value, tape⟩, -, hrun⟩ := Option.bind_eq_some_iff.mp h
    cases hrun
    rfl
  | VirtualHostIo o =>
    obtain ⟨⟨_, cpu1⟩, hrun, heq⟩ := Option.bind_eq_some_iff.mp h
    cases heq
    exact (hostIo_silent.run hrun).2.2
  | branch op o | assert op o | align op o =>
    simp only [exec] at h
    split at h <;> cases h
    all_goals rfl
  | _ =>
    cases h
    rfl

theorem exec_spares (hop : op.sparesReservation) (h : op.exec address cpu = .some (access, cpu')) :
    SameReservation cpu cpu' := ⟨exec_reserved h, fun width => exec_read h (hop width)⟩

theorem rewritable_spares : Rewritable sparesReservation where
  nop width := by cases width <;> decide
  withRd op h width := by
    cases op <;> first | exact h width | exact fun heq => virtual_ne_register width (Option.some.inj heq)
  advice o v v' h := h

end BasicOp

section Runs

variable {address : U64} {ops : List BasicOp} {cpu cpu' : Cpu}

theorem runOps_reserved (h : runOps address ops cpu = .some cpu') : cpu'.reserved = cpu.reserved := by
  induction ops generalizing cpu with
  | nil =>
    cases h
    rfl
  | cons op ops ih =>
    obtain ⟨⟨access, cpu1⟩, hexec, hrest⟩ := Option.bind_eq_some_iff.mp h
    exact (ih hrest).trans (BasicOp.exec_reserved hexec)

theorem runOps_spares (hops : ∀ op ∈ ops, op.sparesReservation) (h : runOps address ops cpu = .some cpu') :
    SameReservation cpu cpu' := by
  induction ops generalizing cpu with
  | nil =>
    cases h
    exact .refl _
  | cons op ops ih =>
    obtain ⟨hop, hrest⟩ := List.forall_mem_cons.mp hops
    obtain ⟨⟨access, cpu1⟩, hexec, hrun⟩ := Option.bind_eq_some_iff.mp h
    exact (BasicOp.exec_spares hop hexec).trans (ih hrest hrun)

theorem traceAllRaw_spares {is : List BasicInstruction} {cycles : List Cycle}
    (his : ∀ i ∈ is, i.op.sparesReservation ∧ i.address = address)
    (h : BasicInstruction.traceAllRaw is cpu = .some (cycles, cpu')) : SameReservation cpu cpu' := by
  have hrun := @BasicInstruction.traceAllRaw_run address is cpu fun i hi => (his i hi).2
  rw [h] at hrun
  refine runOps_spares (fun op hop => ?_) hrun.symm
  obtain ⟨i, hi, rfl⟩ := List.mem_map.mp hop
  exact (his i hi).1

theorem traceAll_spares {isCompressed : Bool} {cycles : List Cycle} (hops : ∀ op ∈ ops, op.sparesReservation)
    (h : BasicInstruction.traceAll (BasicInstruction.finalize address isCompressed ops) cpu = .some (cycles, cpu')) :
    SameReservation cpu cpu' := by
  obtain ⟨is, hraw, his⟩ := traceAll_finalize_all BasicOp.rewritable_spares hops h
  exact traceAllRaw_spares his hraw

end Runs

/-! ## The sequences -/

/-- The instruction is a load-reserved or a store-conditional. -/
def Op.reserves : Op → Bool
  | .seq (.lr ..) | .seq (.sc ..) => true
  | _ => false

section Sequences

variable {next : Nat} {ops : List BasicOp}

theorem csrToVirtualRegister_spares {csr vr : Nat} (h : csrToVirtualRegister csr = .some vr)
    (width : ReservationWidth) : vr ≠ width.register := by
  unfold csrToVirtualRegister at h
  split at h <;> cases h
  all_goals cases width <;> decide

-- What the sequences are written in, unfolded once for the lemmas of the section.
attribute [local simp] BasicOp.sparesReservation BasicOp.rd BasicOp.normalize SLLI.inlineSequence SLL.inlineSequence
  SRL.inlineSequence SRLI.inlineSequence SRAI.inlineSequence LW.inlineSequence SW.inlineSequence rightShiftSequence
  rightShiftISequence loadDword

variable {width : ReservationWidth}

theorem SeqROp.spares (op : SeqROp) {o : FormatR} (hrd : o.rd ≠ width.register) (hnext : width.register < next) :
    ∀ b ∈ op.inlineSequence o next, b.rd ≠ .some width.register := by
  have hlater (k : Nat) : next + k ≠ width.register := by omega
  have hfirst : next ≠ width.register := by omega
  cases op <;>
    simp [SeqROp.inlineSequence, DIV.inlineSequence, REM.inlineSequence, DIVW.inlineSequence,
      REMW.inlineSequence, divRemWSequence, DIVU.inlineSequence, REMU.inlineSequence,
      DIVUW.inlineSequence, REMUW.inlineSequence, MULH.inlineSequence, MULHSU.inlineSequence,
      MULW.inlineSequence, ADDW.inlineSequence, SUBW.inlineSequence, wordSequence,
      SLLW.inlineSequence, SRA.inlineSequence, SRLW.inlineSequence, SRAW.inlineSequence, Nat.add_assoc, hrd, hlater,
      hfirst]

theorem SeqIOp.spares (op : SeqIOp) {o : FormatI} (hrd : o.rd ≠ width.register) (hnext : width.register < next) :
    ∀ b ∈ op.inlineSequence o next, b.rd ≠ .some width.register := by
  have hfirst : next ≠ width.register := by omega
  cases op <;>
    simp [SeqIOp.inlineSequence, ADDIW.inlineSequence, SLLIW.inlineSequence, SRLIW.inlineSequence,
      SRAIW.inlineSequence, hrd, hfirst]

theorem LoadOp.spares (op : LoadOp) {o : FormatLoad} (hrd : o.rd ≠ width.register) (hnext : width.register < next) :
    ∀ b ∈ op.inlineSequence o next, b.rd ≠ .some width.register := by
  have hlater (k : Nat) : next + k ≠ width.register := by omega
  have hfirst : next ≠ width.register := by omega
  cases op <;>
    simp [LoadOp.inlineSequence, LB.inlineSequence, LBU.inlineSequence, LH.inlineSequence,
      LHU.inlineSequence, LWU.inlineSequence, loadSequence, hrd, hlater, hfirst]

theorem StoreOp.spares (op : StoreOp) {o : FormatS} (hnext : width.register < next) :
    ∀ b ∈ op.inlineSequence o next, b.rd ≠ .some width.register := by
  have hlater (k : Nat) : next + k ≠ width.register := by omega
  have hfirst : next ≠ width.register := by omega
  cases op <;>
    simp [StoreOp.inlineSequence, SB.inlineSequence, SH.inlineSequence, storeSequence, hlater, hfirst]

theorem AmoOp.spares (op : AmoOp) (amo : ReservationWidth) {o : FormatR} (hrd : o.rd ≠ width.register)
    (hnext : width.register < next) : ∀ b ∈ op.inlineSequence amo o next, b.rd ≠ .some width.register := by
  have hlater (k : Nat) : next + k ≠ width.register := by omega
  have hfirst : next ≠ width.register := by omega
  cases amo <;> cases op <;>
    simp [AmoOp.inlineSequence, AMOADDW.inlineSequence, AMOANDW.inlineSequence, AMOORW.inlineSequence,
      AMOXORW.inlineSequence, AMOSWAPW.inlineSequence, AMOMAXW.inlineSequence, AMOMINW.inlineSequence,
      AMOMAXUW.inlineSequence, AMOMINUW.inlineSequence, AMOADDD.inlineSequence,
      AMOANDD.inlineSequence, AMOORD.inlineSequence, AMOXORD.inlineSequence, AMOSWAPD.inlineSequence,
      AMOMAXD.inlineSequence, AMOMIND.inlineSequence, AMOMAXUD.inlineSequence,
      AMOMINUD.inlineSequence, amoArithW, amoSelectW, amoArithD, amoSelectD, amoPre64, amoPost64, hrd,
      hlater, hfirst]

/-- The sequences of the other instructions. -/
theorem SeqOp.spares {op : SeqOp} (hop : (Op.seq op).reserves = false) (hrd : op.rd ≠ .some width.register)
    (hnext : width.register < next) (h : op.inlineSequence next = .some ops) :
    ∀ b ∈ ops, b.rd ≠ .some width.register := by
  have hne {rd : Nat} (hop : op.rd = .some rd) : rd ≠ width.register := fun heq => hrd (heq ▸ hop)
  have hlater (k : Nat) : next + k ≠ width.register := by omega
  have hfirst : next ≠ width.register := by omega
  cases op with
  | lr width o | sc width o => cases hop
  | r op o =>
    cases h
    exact op.spares (hne rfl) hnext
  | i op o =>
    cases h
    exact op.spares (hne rfl) hnext
  | load op o =>
    cases h
    exact op.spares (hne rfl) hnext
  | store op o =>
    cases h
    exact op.spares hnext
  | amo op width o =>
    cases h
    exact op.spares width (hne rfl) hnext
  | advice op o =>
    have hord : o.rd ≠ width.register := hne rfl
    cases op <;> cases h <;>
      simp [AdviceOp.inlineSequence, AdviceLB.inlineSequence, AdviceLH.inlineSequence,
        AdviceLW.inlineSequence, AdviceLD.inlineSequence, adviceLoadSequence, hord]
  | CSRRW o =>
    have hord : o.rd ≠ width.register := hne rfl
    rcases CSRRW.sequence_cases h with rfl | ⟨vr, hvr, ⟨-, rfl⟩ | ⟨-, rfl⟩ | ⟨-, rfl⟩⟩
    · simp
    all_goals
      have hvr := csrToVirtualRegister_spares hvr width
      simp [hord, hvr, hfirst]
  | CSRRS o =>
    have hord : o.rd ≠ width.register := hne rfl
    rcases CSRRS.sequence_cases h with rfl | ⟨vr, hvr, rfl | ⟨-, rfl⟩ | ⟨-, rfl⟩ | ⟨-, rfl⟩⟩
    · simp
    all_goals
      have hvr := csrToVirtualRegister_spares hvr width
      simp [hord, hvr, hfirst]
  | ECALL o | MRET o =>
    cases h
    have hnamed : mepcRegister ≠ width.register ∧ mcauseRegister ≠ width.register ∧ mtvalRegister ≠ width.register ∧
      mstatusRegister ≠ width.register := by cases width <;> decide
    simp [ECALL.inlineSequence, MRET.inlineSequence, hnamed, hfirst]

end Sequences

/-! ## Instructions that do not reserve -/

section Instructions

variable {inlines : Inlines} {i : Instruction} {cpu cpu' : Cpu} {cycles : List Cycle}

/-- The operations of an instruction, or of its rewriting. -/
theorem Op.operations_spare {op : Op} (hop : op.reserves = false) (hrd : ∀ r ∈ op.rd, r < 32 ∨ firstVirtualRegister ≤ r)
    {next : Nat} (hnext : firstVirtualRegister ≤ next) {ops : List BasicOp}
    (h : op.operations inlines next = .some ops) : ∀ b ∈ ops, b.sparesReservation := by
  intro b hb width
  have hregister : 32 ≤ width.register ∧ width.register < firstVirtualRegister := by cases width <;> decide
  have hne : op.rd ≠ .some width.register := fun heq => by
    have := hrd _ heq
    omega
  cases op with
  | basic bop =>
    cases h
    cases List.mem_singleton.mp hb
    exact hne
  | seq sop => exact sop.spares hop hne (by omega) h b hb
  | inline iop =>
    obtain ⟨reg, -, rfl⟩ := Option.map_eq_some_iff.mp h
    have hemitted := (Bool.and_eq_true_iff.mp (reg.emitted _ _ hnext b hb)).1
    intro heq
    rw [heq, validVirtualRd] at hemitted
    simp at hemitted
    omega

/-- The rewriting of `x0` keeps the registers outside the reservation. -/
theorem Op.withRd_spares {op : Op} (hop : op.reserves = false) (hrd : ∀ r ∈ op.rd, r < 32 ∨ firstVirtualRegister ≤ r) :
    (op.withRd firstVirtualRegister).reserves = false ∧
      ∀ r ∈ (op.withRd firstVirtualRegister).rd, r < 32 ∨ firstVirtualRegister ≤ r := by
  have hvirtual : ∀ r ∈ (.some firstVirtualRegister : Option Nat), r < 32 ∨ firstVirtualRegister ≤ r :=
    fun r hr => .inr (Option.mem_some.mp hr).le
  cases op with
  | basic op => cases op <;> exact ⟨rfl, by first | exact hvirtual | exact hrd⟩
  | seq op =>
    cases op with
    | lr width o | sc width o => cases hop
    | store op o => exact ⟨rfl, hrd⟩
    | _ => exact ⟨rfl, hvirtual⟩
  | inline op => exact ⟨rfl, hvirtual⟩

/-- **An instruction that does not reserve leaves the reservation alone.** -/
theorem Instruction.trace_spares (hdec : i.op.Decoded) (hop : i.op.reserves = false)
    (h : i.trace inlines cpu = .some (cycles, cpu')) : SameReservation cpu cpu' := by
  have hrd : ∀ r ∈ i.op.rd, r < 32 ∨ firstVirtualRegister ≤ r := fun r hr => .inl (hdec.registers.rd r hr)
  have hspare : ∀ op, op = i.op ∨ op = i.op.withRd firstVirtualRegister → ∀ next, firstVirtualRegister ≤ next →
      ∀ ops, op.operations inlines next = .some ops → ∀ b ∈ ops, b.sparesReservation := by
    rintro op (rfl | rfl) next hnext ops hops
    · exact Op.operations_spare hop hrd hnext hops
    · obtain ⟨hop', hrd'⟩ := Op.withRd_spares hop hrd
      exact Op.operations_spare hop' hrd' hnext hops
  have hops := hspare _ (.inl rfl) _ (Nat.le_refl firstVirtualRegister)
  unfold Instruction.trace at h
  split_ifs at h
  · obtain ⟨⟨is, cpu1⟩, hseq, hrun⟩ := Option.bind_eq_some_iff.mp h
    obtain ⟨is', his, hpure⟩ := Option.bind_eq_some_iff.mp hseq
    cases hpure
    exact traceAllRaw_spares (inlineSequence_all BasicOp.rewritable_spares hspare his) hrun
  cases hiop : i.op with
  | basic op =>
    simp only [Instruction.traceRaw, hiop] at h
    obtain ⟨access, hexec, -⟩ := BasicInstruction.traceRaw_exec h
    exact BasicOp.exec_spares (hops [op] (by rw [hiop]; rfl) op (List.mem_singleton.mpr rfl)) hexec
  | seq op =>
    rw [Instruction.traceRaw_seq inlines hiop] at h
    obtain ⟨ops, hfilled, h⟩ := Option.bind_eq_some_iff.mp h
    obtain ⟨ops', hseq, hfill⟩ := Option.bind_eq_some_iff.mp hfilled
    obtain ⟨⟨cs, cpu1⟩, hrun, hpure⟩ := Option.bind_eq_some_iff.mp h
    cases hpure
    have hall := BasicOp.rewritable_spares.fillAdvice (hops ops' (by rw [hiop]; exact hseq)) hfill
    rw [hiop] at hop
    cases op with
    | lr width o | sc width o => cases hop
    | _ => exact traceAll_spares hall hrun
  | inline op =>
    simp only [Instruction.traceRaw, hiop, Fallible.bind_apply, Fallible.lift_apply,
      Option.bind_eq_bind, Option.bind_assoc, Option.bind_some] at h
    obtain ⟨reg, hreg, h⟩ := Option.bind_eq_some_iff.mp h
    obtain ⟨⟨advice, cpu1⟩, hadvice, h⟩ := Option.bind_eq_some_iff.mp h
    have hsilent := SameReservation.of_silent (reg.buildAdvice op.operands).run_silent hadvice
    have hbuild := hops _ (by rw [hiop, Op.operations, hreg]; rfl)
    cases advice with
    | none => exact hsilent.trans (traceAll_spares hbuild h)
    | some values =>
      obtain ⟨⟨ops, cpu2⟩, hfilled, h⟩ := Option.bind_eq_some_iff.mp h
      obtain ⟨ops', hfill, hpure⟩ := Option.bind_eq_some_iff.mp hfilled
      cases hpure
      exact hsilent.trans (traceAll_spares (BasicOp.rewritable_spares.fillInlineAdvice hbuild hfill) h)

end Instructions

/-! ## Load-reserved and store-conditional -/

/-- What the two hold: the width and the address of a reservation. -/
structure Reservations where
  emulator : Option (ReservationWidth × U64)
  sequences : Option (ReservationWidth × U64)
deriving DecidableEq

namespace Reservations

/-- What the register of a width holds. -/
def register (r : Reservations) (width : ReservationWidth) : U64 :=
  match r.sequences with
  | .some (w, a) => if width = w then a else 0
  | .none => 0

/-- The sequences make or drop a reservation; the emulator does with them unless
the result is discarded. -/
def update (r : Reservations) (rd : Nat) (held : Option (ReservationWidth × U64)) : Reservations where
  emulator := if rd = 0 then r.emulator else held
  sequences := held

/-- What the emulator holds of an address is in the register of its width. -/
def Confirms (r : Reservations) (width : ReservationWidth) (a : U64) : Prop :=
  r.emulator = .some (width, a) → r.register width = a

/-- What is reserved after an instruction. -/
def retire (r : Reservations) (op : Op) (cpu : Cpu) : Reservations :=
  match op with
  | .seq (.lr width o) => r.update o.rd (.some (width, cpu.x.read o.rs1))
  | .seq (.sc _ o) => r.update o.rd .none
  | _ => r

/-- What is reserved after a tick. -/
def tick (r : Reservations) (cpu : Cpu) : Reservations :=
  if cpu.wfi then r
  else
    match Cpu.fetchDecode cpu with
    | .some (i, fetched) => r.retire i.op fetched
    | .none => r

/-- The processor holds these reservations. -/
structure Follows (r : Reservations) (cpu : Cpu) : Prop where
  emulator : ∀ (a : U64) (width : ReservationWidth),
    cpu.hasReservation a width = true ↔ r.emulator = .some (width, a)
  sequences : ∀ width : ReservationWidth, cpu.x.read width.register = r.register width

variable {r : Reservations} {cpu cpu' : Cpu}

theorem hasReservation_congr (h : cpu'.reserved = cpu.reserved) (a : U64) (width : ReservationWidth) :
    cpu'.hasReservation a width = cpu.hasReservation a width := by
  obtain ⟨hreservation, hset, hwidth⟩ : cpu'.reservation = cpu.reservation ∧
      cpu'.isReservationSet = cpu.isReservationSet ∧ cpu'.reservationWidth = cpu.reservationWidth := by
    simpa [Cpu.reserved] using h
  rw [Cpu.hasReservation, hreservation, hset, hwidth]
  rfl

theorem Follows.congr (h : r.Follows cpu) (hsame : SameReservation cpu cpu') : r.Follows cpu' where
  emulator a width := by
    rw [hasReservation_congr hsame.reserved]
    exact h.emulator a width
  sequences width := (hsame.registers width).trans (h.sequences width)

theorem hasReservation_set (cpu : Cpu) (address a : U64) (w width : ReservationWidth) :
    (cpu.setReservation address w).hasReservation a width = true ↔
      (.some (w, address) : Option (ReservationWidth × U64)) = .some (width, a) := by
  simp [Cpu.hasReservation, Cpu.setReservation, and_comm]

end Reservations

section Reserving

variable {inlines : Inlines} {i : Instruction} {width : ReservationWidth} {o : FormatR} {address : U64}
  {cpu cpu' : Cpu} {cycles : List Cycle} {next : Nat} {ops : List BasicOp} {r : Reservations}

/-- The word load at the end of the sequence of a load-reserved. -/
theorem LW.spares (hrd : ∀ width : ReservationWidth, o.rd ≠ width.register) (hnext : firstVirtualRegister ≤ next) :
    ∀ b ∈ LW.inlineSequence ⟨o.rd, o.rs1, 0⟩ next, b.sparesReservation := by
  intro b hb width
  have hregister : width.register < firstVirtualRegister := by cases width <;> decide
  have hlater (k : Nat) : next + k ≠ width.register := by omega
  have hfirst : next ≠ width.register := by omega
  revert b
  simp [LW.inlineSequence, loadDword, SLLI.inlineSequence, SRL.inlineSequence, rightShiftSequence, BasicOp.rd,
    BasicOp.normalize, hrd, hlater, hfirst]

/-- A load-reserved puts the address in the register of its width and clears the other. -/
theorem run_lr (hrd : ∀ width : ReservationWidth, o.rd ≠ width.register)
    (hnext : firstVirtualRegister ≤ next) (hops : (SeqOp.lr width o).inlineSequence next = .some ops)
    (h : runOps address ops cpu = .some cpu') (w : ReservationWidth) :
    cpu'.x.read w.register = if w = width then cpu.x.read o.rs1 else 0 := by
  have hW := hrd .word
  have hD := hrd .doubleword
  cases width with
  | word =>
    cases hops
    simp (disch := omega) only [LRW.inlineSequence, List.flatten_cons, List.flatten_nil, List.append_nil,
      List.cons_append, List.nil_append, runOps_i, Cpu.writeRegister_x, eval_addi, add_zero, reservationWRegister,
      reservationDRegister, Registers.read_zero] at h
    rw [(runOps_spares (LW.spares hrd hnext) h).registers]
    cases w <;> simp [ReservationWidth.register, reservationWRegister, reservationDRegister, Registers.read_write]
  | doubleword =>
    cases hops
    have hload : ∀ b ∈ [BasicOp.LD ⟨o.rd, o.rs1, 0⟩], b.sparesReservation := by
      intro b hb w
      cases List.mem_singleton.mp hb
      exact fun heq => hrd w (Option.some.inj heq)
    simp only [LRD.inlineSequence, runOps_i, eval_addi, add_zero, reservationWRegister,
      reservationDRegister, Registers.read_zero] at h
    rw [(runOps_spares hload h).registers]
    cases w <;> simp [ReservationWidth.register, reservationWRegister, reservationDRegister, Registers.read_write]

/-- A store-conditional clears both registers. -/
theorem run_sc (hrd : ∀ width : ReservationWidth, o.rd ≠ width.register) {s : U64}
    (hops : (SeqOp.sc width o).inlineSequence next = .some ops)
    (h : runOps address (forgeAdvice [s] ops) cpu = .some cpu') (w : ReservationWidth) :
    cpu'.x.read w.register = 0 := by
  have hW := hrd .word
  have hD := hrd .doubleword
  -- The last three operations, after which the registers are clear.
  rw [← List.take_append_drop (ops.length - 3) (forgeAdvice [s] ops), runOps_append] at h
  obtain ⟨cpu1, -, h⟩ := Option.bind_eq_some_iff.mp h
  cases width with
  | word =>
    cases hops
    have htail : (forgeAdvice [s] (SCW.inlineSequence o next)).drop ((SCW.inlineSequence o next).length - 3) =
        [.i .XORI ⟨o.rd, reservationWRegister, 1⟩, .i .ADDI ⟨reservationWRegister, 0, 0⟩,
          .i .ADDI ⟨reservationDRegister, 0, 0⟩] := rfl
    rw [htail] at h
    simp only [runOps_i, runOps_nil, Option.some.injEq, eval_addi, add_zero] at h
    subst h
    cases w <;> simp [ReservationWidth.register, reservationWRegister, reservationDRegister, Registers.read_write]
  | doubleword =>
    cases hops
    have htail : (forgeAdvice [s] (SCD.inlineSequence o next)).drop ((SCD.inlineSequence o next).length - 3) =
        [.i .ADDI ⟨reservationDRegister, 0, 0⟩, .i .ADDI ⟨reservationWRegister, 0, 0⟩,
          .i .XORI ⟨o.rd, next, 1⟩] := rfl
    rw [htail] at h
    simp only [runOps_i, runOps_nil, Option.some.injEq, eval_addi, add_zero] at h
    subst h
    have hne : o.rd ≠ w.register := hrd w
    rw [Cpu.writeRegister_x, Registers.read_write_ne _ _ hne.symm]
    cases w <;> simp [ReservationWidth.register, reservationWRegister, reservationDRegister, Registers.read_write]

/-- The advice that a store-conditional is traced with. -/
theorem SeqOp.sc_filled
    (h : ((SeqOp.sc width o).inlineSequence next >>= (SeqOp.sc width o).fillAdvice cpu) = .some ops) :
    ∃ ops', (SeqOp.sc width o).inlineSequence next = .some ops' ∧
      ops = forgeAdvice [if cpu.hasReservation (cpu.x.read o.rs1) width then 1 else 0] ops' := by
  obtain ⟨ops', hops, hfill⟩ := Option.bind_eq_some_iff.mp h
  refine ⟨ops', hops, ?_⟩
  cases width <;> cases hops <;> exact (Option.some.inj hfill).symm

/-- The prelude of a store-conditional passes unless the emulator holds a
reservation that the registers do not. -/
theorem run_prelude (ho : o.rs1 < 32) (h : ((SeqOp.sc width o).inlineSequence firstVirtualRegister >>=
      (SeqOp.sc width o).fillAdvice cpu) = .some ops) :
    (runOps address (ops.take 6) cpu).isSome ↔ (cpu.hasReservation (cpu.x.read o.rs1) width = true →
      cpu.x.read width.register = cpu.x.read o.rs1) := by
  obtain ⟨ops', hops, rfl⟩ := SeqOp.sc_filled h
  generalize hs : (if cpu.hasReservation (cpu.x.read o.rs1) width then (1 : U64) else 0) = s
  have hregister : width.register < 40 := by cases width <;> decide
  have htake : (forgeAdvice [s] ops').take 6 = forgeAdvice [s] (scPrelude width.register o.rs1 40 41 ++ []) := by
    cases width <;> cases hops <;> rfl
  rw [htake]
  simp (disch := omega) only [scPrelude, List.cons_append, List.nil_append, forgeAdvice, runOps_advice, runOps_i,
    runOps_r, runOps_assert, runOps_nil, Cpu.writeRegister_x, Registers.read_write_self, Registers.read_write_ne,
    Registers.read_zero, eval_addi, eval_sub, eval_mul, zero_add, holds_assertLTE, holds_assertEQ]
  by_cases hheld : cpu.hasReservation (cpu.x.read o.rs1) width = true
  · rw [if_pos hheld] at hs
    subst hs
    rw [if_pos (by decide), one_mul]
    simpa [hheld] using sub_eq_zero (a := cpu.x.read width.register) (b := cpu.x.read o.rs1)
  · rw [if_neg hheld] at hs
    subst hs
    simp [hheld]

/-! ## Traces -/

/-- What a traced instruction with a sequence runs. -/
theorem Instruction.trace_seq_run {op : SeqOp} (hi : i.op = .seq op) (hrd : op.rd ≠ .some 0)
    (h : i.trace inlines cpu = .some (cycles, cpu')) : ∃ ops cpu1,
      (op.inlineSequence firstVirtualRegister >>= op.fillAdvice (op.reserve cpu)) = .some ops ∧
      BasicInstruction.traceAll (BasicInstruction.finalize i.address i.isCompressed ops) (op.reserve cpu) =
        .some (cycles, cpu1) ∧ cpu' = op.release cpu1 := by
  have hrd' : i.op.rd ≠ .some 0 := by
    rw [hi]
    exact hrd
  rw [Instruction.trace, if_neg hrd', Instruction.traceRaw_seq inlines hi] at h
  obtain ⟨ops, hfilled, h⟩ := Option.bind_eq_some_iff.mp h
  obtain ⟨⟨cs, cpu1⟩, hrun, hpure⟩ := Option.bind_eq_some_iff.mp h
  cases hpure
  exact ⟨ops, cpu1, hfilled, hrun, rfl⟩

theorem run_of_traceAll {isCompressed : Bool} (hops : ∀ op ∈ ops, op.rd ≠ .some 0)
    (h : BasicInstruction.traceAll (BasicInstruction.finalize address isCompressed ops) cpu = .some (cycles, cpu')) :
    runOps address ops cpu = .some cpu' := by
  rw [← BasicInstruction.traceAll_finalize hops, h]
  rfl

theorem loadReserved_rd_ne (hrd : o.rd ≠ 0)
    (hops : (SeqOp.lr width o).inlineSequence firstVirtualRegister = .some ops) :
    ∀ b ∈ ops, b.rd ≠ .some 0 := by
  cases width <;> cases hops <;>
    simp [LRW.inlineSequence, LRD.inlineSequence, LW.inlineSequence, loadDword, SLLI.inlineSequence,
      SRL.inlineSequence, rightShiftSequence, firstVirtualRegister, reservationWRegister, reservationDRegister,
      BasicOp.rd, BasicOp.normalize, hrd]

/-- A sequence in the place of one that discards its result leaves the emulator's reservation as it is. -/
theorem Reservations.Follows.discard (hfollows : r.Follows cpu) (hrun : runOps address ops cpu = .some cpu')
    {held : Option (ReservationWidth × U64)}
    (hregisters : ∀ w : ReservationWidth, cpu'.x.read w.register = (r.update 0 held).register w) :
    (r.update 0 held).Follows cpu' where
  emulator a w := by
    rw [Reservations.hasReservation_congr (runOps_reserved hrun), Reservations.update, if_pos rfl]
    exact hfollows.emulator a w
  sequences := hregisters

/-- A load-reserved that discards its result reserves in the registers only. -/
theorem Instruction.trace_lr (hfollows : r.Follows cpu) (hi : i.op = .seq (.lr width o))
    (ho : ∀ w : ReservationWidth, o.rd ≠ w.register) (h : i.trace inlines cpu = .some (cycles, cpu')) :
    (r.update o.rd (.some (width, cpu.x.read o.rs1))).Follows cpu' := by
  by_cases hrd : o.rd = 0
  · obtain ⟨ops, hops, hrun⟩ := trace_x0_run hi (congrArg _ hrd) rfl rfl h
    have hregisters := run_lr virtual_ne_register (Nat.le_succ _) hops hrun
    rw [hrd]
    exact hfollows.discard hrun hregisters
  · obtain ⟨ops, cpu1, hfilled, hrun, hcpu⟩ := Instruction.trace_seq_run hi (fun heq => hrd (Option.some.inj heq)) h
    obtain ⟨ops', hops, hfill⟩ := Option.bind_eq_some_iff.mp hfilled
    cases hfill
    have hrun := run_of_traceAll (loadReserved_rd_ne hrd hops) hrun
    have hcpu : cpu' = cpu1 := hcpu
    subst hcpu
    constructor
    · intro a w
      rw [Reservations.hasReservation_congr (runOps_reserved hrun), Reservations.update, if_neg hrd]
      exact Reservations.hasReservation_set cpu (cpu.x.read o.rs1) a width w
    · have hregisters := run_lr ho (Nat.le_refl _) hops hrun
      exact hregisters

/-- And so does a store-conditional drop it. -/
theorem Instruction.trace_sc (hfollows : r.Follows cpu) (hi : i.op = .seq (.sc width o))
    (ho : ∀ w : ReservationWidth, o.rd ≠ w.register) (h : i.trace inlines cpu = .some (cycles, cpu')) :
    (r.update o.rd .none).Follows cpu' := by
  by_cases hrd : o.rd = 0
  · obtain ⟨ops, hops, hrun⟩ := trace_x0_run hi (congrArg _ hrd) rfl rfl h
    -- The advice is not filled in, so that it is zero.
    have hunfilled : forgeAdvice [0] ops = ops := by cases width <;> cases hops <;> rfl
    have hregisters := run_sc virtual_ne_register hops (hunfilled.symm ▸ hrun)
    rw [hrd]
    exact hfollows.discard hrun hregisters
  · obtain ⟨ops, cpu1, hfilled, hrun, rfl⟩ := Instruction.trace_seq_run hi (fun heq => hrd (Option.some.inj heq)) h
    obtain ⟨ops', hops, rfl⟩ := SeqOp.sc_filled hfilled
    have hrun := run_of_traceAll (forgeAdvice_rd_ne (storeConditional_rd_ne hrd hops)) hrun
    constructor
    · intro a w
      rw [Reservations.update, if_neg hrd]
      exact iff_of_false Bool.false_ne_true (Option.some_ne_none _).symm
    · have hregisters := run_sc ho hops hrun
      exact hregisters

/-- **The trace of an instruction keeps track of both reservations.** -/
theorem Instruction.trace_follows (hdec : i.op.Decoded) (hfollows : r.Follows cpu)
    (h : i.trace inlines cpu = .some (cycles, cpu')) : (r.retire i.op cpu).Follows cpu' := by
  have hlow {o : FormatR} (ho : i.op.rd = .some o.rd) (w : ReservationWidth) : o.rd ≠ w.register := by
    have hlt := hdec.registers.rd _ ho
    have hregister : 32 ≤ w.register := by cases w <;> decide
    omega
  have hspares (hop : i.op.reserves = false) : r.Follows cpu' := hfollows.congr (Instruction.trace_spares hdec hop h)
  cases hop : i.op with
  | basic op | inline op => exact hspares (by rw [hop]; rfl)
  | seq op =>
    cases op with
    | lr width o => exact Instruction.trace_lr hfollows hop (hlow (by rw [hop]; rfl)) h
    | sc width o => exact Instruction.trace_sc hfollows hop (hlow (by rw [hop]; rfl)) h
    | _ => exact hspares (by rw [hop]; rfl)

end Reserving

/-! ## Runs -/

section Runs

variable {inlines : Inlines} {i : Instruction} {cpu cpu' : Cpu} {cycles : List Cycle} {r : Reservations}

theorem fetchDecode_decoded {fetched : Cpu} (h : Cpu.fetchDecode cpu = .some (i, fetched)) : i.op.Decoded := by
  simp only [Cpu.fetchDecode, Fallible.bind_apply, Fallible.get_apply, Fallible.modify_apply, Fallible.lift_apply,
    Option.bind_eq_bind, Option.bind_some] at h
  obtain ⟨⟨word, cpu1⟩, -, h⟩ := Option.bind_eq_some_iff.mp h
  obtain ⟨i', hdecode, hpure⟩ := Option.bind_eq_some_iff.mp h
  cases hpure
  obtain ⟨op, hop, hdecode⟩ := Option.bind_eq_some_iff.mp hdecode
  cases hdecode
  exact decodeOp_decoded hop

/-- The tick is silent but for the instruction. -/
theorem Cpu.tick_follows (hfollows : r.Follows cpu) (h : cpu.tick inlines true = .some (cycles, cpu')) :
    (r.tick cpu).Follows cpu' := by
  simp only [Cpu.tick, Fallible.bind_apply, Fallible.get_apply, Option.bind_eq_bind, Option.bind_some] at h
  obtain ⟨⟨cs, cpu1⟩, hoperate, h⟩ := Option.bind_eq_some_iff.mp h
  obtain ⟨⟨_, cpu2⟩, hinterrupt, h⟩ := Option.bind_eq_some_iff.mp h
  obtain ⟨⟨_, cpu3⟩, hclock, hpure⟩ := Option.bind_eq_some_iff.mp h
  cases hpure
  suffices hoperated : (r.tick cpu).Follows cpu1 from
    (hoperated.congr (.of_silent (handleInterrupt_silent _) hinterrupt)).congr (.of_silent advanceClock_silent hclock)
  simp only [tickOperate, Fallible.bind_apply, Fallible.get_apply, Option.bind_eq_bind, Option.bind_some,
    if_true] at hoperate
  rw [Reservations.tick]
  split_ifs at hoperate ⊢
  · obtain ⟨⟨_, cpu0⟩, hwake, hpure⟩ := Option.bind_eq_some_iff.mp hoperate
    cases hpure
    exact hfollows.congr (.of_silent wake_silent hwake)
  · obtain ⟨⟨i, cpu0⟩, hfetch, htrace⟩ := Option.bind_eq_some_iff.mp hoperate
    have hfetched := hfollows.congr (.of_silent fetchDecode_silent hfetch)
    rw [hfetch]
    exact Instruction.trace_follows (fetchDecode_decoded hfetch) hfetched htrace

/-- The processors reached from one that holds no reservation, by ticks of those
that `may`, with what has been reserved. -/
inductive Reached (inlines : Inlines) (may : Cpu → Prop) : Cpu → Reservations → Prop
  | start {start : Cpu} (hunset : start.isReservationSet = false)
    (hclear : ∀ width : ReservationWidth, start.x.read width.register = 0) : Reached inlines may start ⟨.none, .none⟩
  | tick {now after : Cpu} {traced : List Cycle} {r : Reservations} (hs : Reached inlines may now r) (hmay : may now)
    (h : now.tick inlines true = .some (traced, after)) : Reached inlines may after (r.tick now)

namespace Reached

variable {may : Cpu → Prop}

theorem follows (h : Reached inlines may cpu r) : r.Follows cpu := by
  induction h with
  | start hunset hclear =>
    refine ⟨fun a width => iff_of_false ?_ (Option.some_ne_none _).symm, hclear⟩
    rw [Cpu.hasReservation, hunset]
    exact Bool.false_ne_true
  | tick _ _ h ih => exact Cpu.tick_follows ih h

/-- The next instruction keeps the result of a reservation that it makes or drops. -/
def keepsResult (cpu : Cpu) : Prop :=
  ∀ i fetched, Cpu.fetchDecode cpu = .some (i, fetched) → i.op.reserves = true → i.op.rd ≠ .some 0

theorem agrees (h : Reached inlines keepsResult cpu r) : r.emulator = r.sequences := by
  induction h with
  | start => rfl
  | @tick now _ _ r hs hmay _ ih =>
    unfold Reservations.tick
    split_ifs
    · exact ih
    · cases hfetch : Cpu.fetchDecode now with
      | none => exact ih
      | some p =>
        obtain ⟨i, fetched⟩ := p
        have hkeeps := hmay i fetched hfetch
        change (r.retire i.op fetched).emulator = (r.retire i.op fetched).sequences
        cases hop : i.op with
        | basic op | inline op => exact ih
        | seq op =>
          cases op with
          | lr width o | sc width o =>
            rw [hop] at hkeeps
            exact if_neg fun heq => hkeeps rfl (congrArg _ heq)
          | _ => exact ih

end Reached

/-- **Both reservations are known over whole runs.** The emulator holds the last
one that kept its result and that no store-conditional with a result has dropped
since; the registers hold the last one at all, likewise. The advice of a
store-conditional passes the checks of its prelude if and only if the emulator's,
where it is of its address, is in the registers too; and where it is not, the
trace panics. -/
theorem reservations_followed {may : Cpu → Prop} (h : Reached inlines may cpu r) :
    (∀ (a : U64) (width : ReservationWidth),
      cpu.hasReservation a width = true ↔ r.emulator = .some (width, a)) ∧
    (∀ width : ReservationWidth, cpu.x.read width.register = r.register width) ∧
    ∀ (i : Instruction) (width : ReservationWidth) (o : FormatR) (ops : List BasicOp),
      i.op = .seq (.sc width o) → o.rs1 < 32 → o.rd ≠ 0 →
      ((SeqOp.sc width o).inlineSequence firstVirtualRegister >>= (SeqOp.sc width o).fillAdvice cpu) = .some ops →
      ((runOps i.address (ops.take 6) cpu).isSome ↔ r.Confirms width (cpu.x.read o.rs1)) ∧
        (¬ r.Confirms width (cpu.x.read o.rs1) → i.trace inlines cpu = .none) := by
  have hfollows := h.follows
  refine ⟨hfollows.emulator, hfollows.sequences, fun i width o ops hi ho hrd hops => ?_⟩
  have hprelude := @run_prelude width o i.address cpu ops ho hops
  rw [hfollows.emulator, hfollows.sequences] at hprelude
  refine ⟨hprelude, fun hfails => ?_⟩
  rw [Option.eq_none_iff_forall_ne_some]
  rintro ⟨cycles, cpu'⟩ htrace
  obtain ⟨ops', cpu1, hfilled, hrun, -⟩ := Instruction.trace_seq_run hi (fun heq => hrd (Option.some.inj heq)) htrace
  cases hops.symm.trans hfilled
  obtain ⟨raw, hraw, rfl⟩ := SeqOp.sc_filled hops
  have hrun := run_of_traceAll (forgeAdvice_rd_ne (storeConditional_rd_ne hrd hraw)) hrun
  rw [← List.take_append_drop 6 (forgeAdvice _ raw), runOps_append] at hrun
  obtain ⟨cpu2, hpassed, -⟩ := Option.bind_eq_some_iff.mp hrun
  exact hfails (hprelude.mp (Option.isSome_iff_exists.mpr ⟨cpu2, hpassed⟩))

/-- A machine whose program makes a reservation, makes another and discards what
it loads, and stores under the first one. -/
def rereservingCpu : Cpu :=
  { Cpu.new with
    x := (Registers.initial.write 6 0x80000010).write 7 0x80000018
    pc := 0x80000000
    mmu := { Mmu.new with
      -- lr.w x5, (x6); lr.w x0, (x7); sc.w x5, x5, (x6)
      memory := {
        memory := fun i => if i = 0 then 0x1003a02f100322af else if i = 1 then 0x185322af else 0
        numDoublewords := 8
        checkpoint := .none } } }

theorem rereservingCpu_clear (width : ReservationWidth) : rereservingCpu.x.read width.register = 0 := by
  cases width <;> decide

/-- The store-conditional of the program panics. -/
theorem reservations_followed_stale : ∃ cpu r, Reached (fun _ _ _ => .none) (fun _ => True) cpu r ∧
    r = ⟨.some (.word, 0x80000010), .some (.word, 0x80000018)⟩ ∧
    (⟨.seq (.sc .word ⟨5, 6, 5⟩), 0x80000008, .none, false, false⟩ : Instruction).trace (fun _ _ _ => .none) cpu =
      .none := by
  have hticks : (do
      let p1 ← rereservingCpu.tick (fun _ _ _ => .none) true
      let p2 ← p1.2.tick (fun _ _ _ => .none) true
      pure (((⟨.none, .none⟩ : Reservations).tick rereservingCpu).tick p1.2, p2.2.x.read 6)) =
      Option.some (⟨.some (.word, 0x80000010), .some (.word, 0x80000018)⟩, 0x80000010) := by decide +kernel
  obtain ⟨⟨cycles1, cpu1⟩, htick1, hticks⟩ := Option.bind_eq_some_iff.mp hticks
  obtain ⟨⟨cycles2, cpu2⟩, htick2, hticks⟩ := Option.bind_eq_some_iff.mp hticks
  obtain ⟨hr, hx6⟩ := Prod.mk.inj (Option.some.inj hticks)
  have hreached : Reached (fun _ _ _ => .none) (fun _ => True) cpu2 _ :=
    ((Reached.start rfl rereservingCpu_clear).tick trivial htick1).tick trivial htick2
  rw [hr] at hreached
  obtain ⟨-, -, hsc⟩ := reservations_followed hreached
  refine ⟨cpu2, _, hreached, rfl, (hsc _ .word ⟨5, 6, 5⟩ _ rfl (by decide) (by decide) rfl).2 ?_⟩
  intro hconfirms
  have hread := hconfirms (by rw [hx6])
  rw [hx6] at hread
  exact absurd hread (by decide)

/-- **The reservations agree** as long as no load-reserved or store-conditional
discards its result: the emulator holds one of an address other than zero if and
only if the register of its width does, and every store-conditional's advice
passes the checks of its prelude. -/
theorem reservations_agree (h : Reached inlines Reached.keepsResult cpu r) :
    (∀ a : U64, a ≠ 0 → ∀ width, cpu.hasReservation a width = true ↔ cpu.x.read width.register = a) ∧
    ∀ (width : ReservationWidth) (o : FormatR) (address : U64) (ops : List BasicOp), o.rs1 < 32 →
      ((SeqOp.sc width o).inlineSequence firstVirtualRegister >>= (SeqOp.sc width o).fillAdvice cpu) = .some ops →
      (runOps address (ops.take 6) cpu).isSome := by
  have hfollows := h.follows
  have hagrees := h.agrees
  have hregister (a : U64) (width : ReservationWidth) (hheld : r.emulator = .some (width, a)) :
      r.register width = a := by
    rw [Reservations.register, ← hagrees, hheld]
    exact if_pos rfl
  constructor
  · intro a ha width
    rw [hfollows.emulator, hfollows.sequences]
    refine ⟨hregister a width, fun hread => ?_⟩
    rw [Reservations.register, ← hagrees] at hread
    split at hread
    · rename_i w b hheld
      split_ifs at hread with hw
      · rw [hheld, hw, hread]
      · exact absurd hread.symm ha
    · exact absurd hread.symm ha
  · intro width o address ops ho hops
    rw [run_prelude ho hops, hfollows.emulator, hfollows.sequences]
    exact hregister _ width

/-- After the first instruction of the program. -/
theorem reservations_agree_word : ∃ cpu r, Reached (fun _ _ _ => .none) Reached.keepsResult cpu r ∧
    cpu.hasReservation 0x80000010 .word = true ∧ cpu.x.read reservationWRegister = 0x80000010 := by
  have htick : (do
      let p0 ← Cpu.fetchDecode rereservingCpu
      let p1 ← rereservingCpu.tick (fun _ _ _ => .none) true
      pure (p0.1.op.rd, p1.2.hasReservation 0x80000010 .word)) = Option.some (.some 5, true) := by decide +kernel
  obtain ⟨⟨i, fetched⟩, hfetch, htick⟩ := Option.bind_eq_some_iff.mp htick
  obtain ⟨⟨cycles, cpu⟩, hrun, htick⟩ := Option.bind_eq_some_iff.mp htick
  obtain ⟨hrd, hheld⟩ := Prod.mk.inj (Option.some.inj htick)
  have hkeeps : Reached.keepsResult rereservingCpu := by
    intro i' fetched' hfetch' _ hdiscards
    cases hfetch.symm.trans hfetch'
    exact absurd (hrd.symm.trans hdiscards) (by decide)
  have hreached := (Reached.start rfl rereservingCpu_clear).tick hkeeps hrun
  exact ⟨cpu, _, hreached, hheld, ((reservations_agree hreached).1 _ (by decide) .word).mp hheld⟩

end Runs

end LightningJolt
