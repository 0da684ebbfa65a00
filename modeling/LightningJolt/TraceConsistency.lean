/-
The trace of a run is consistent, for the registers and for memory: each cycle
of it finds what the cycles before it left.
-/
import LightningJolt.TraceLog
import LightningJolt.R1csLocal
import LightningJolt.WordPaths

namespace LightningJolt

open Fallible CellAccess

/-! ## What records nothing -/

/-- The reservation of the emulator. -/
def Cpu.reserved (cpu : Cpu) : U64 × Bool × ReservationWidth :=
  (cpu.reservation, cpu.isReservationSet, cpu.reservationWidth)

/-- A computation that leaves the registers and the reservation alone and only reads memory. -/
structure Silent {α : Type} (x : CpuM α) : Prop where
  run : ∀ {cpu a cpu'}, x cpu = .some (a, cpu') →
    cpu'.x = cpu.x ∧ cpu.mmu ≈ cpu'.mmu ∧ cpu'.reserved = cpu.reserved

namespace Silent

variable {α β : Type} {x : CpuM α}

theorem pure (a : α) : Silent (pure a : CpuM α) where
  run h := by
    cases h
    exact ⟨rfl, Setoid.refl _, rfl⟩

theorem failure : Silent (failure : CpuM α) where
  run h := by cases h

theorem get : Silent (get : CpuM Cpu) where
  run h := by
    cases h
    exact ⟨rfl, Setoid.refl _, rfl⟩

theorem lift (x : Option α) : Silent (StateT.lift x : CpuM α) where
  run h := by
    obtain ⟨b, -, hb⟩ := Option.bind_eq_some_iff.mp h
    cases hb
    exact ⟨rfl, Setoid.refl _, rfl⟩

theorem modify {f : Cpu → Cpu}
    (hf : ∀ cpu, (f cpu).x = cpu.x ∧ (f cpu).mmu = cpu.mmu ∧ (f cpu).reserved = cpu.reserved) :
    Silent (modify f : CpuM PUnit) where
  run {cpu} _ _ h := by
    cases h
    obtain ⟨hx, hm, hr⟩ := hf cpu
    exact ⟨hx, by rw [hm], hr⟩

theorem bind {f : α → CpuM β} (hx : Silent x) (hf : ∀ a, Silent (f a)) : Silent (x >>= f) where
  run h := by
    obtain ⟨⟨a, cpu1⟩, hrun, hrest⟩ := Option.bind_eq_some_iff.mp h
    obtain ⟨hx1, hm1, hr1⟩ := hx.run hrun
    obtain ⟨hx2, hm2, hr2⟩ := (hf a).run hrest
    exact ⟨hx2.trans hx1, Setoid.trans hm1 hm2, hr2.trans hr1⟩

theorem ite {p : Prop} [Decidable p] {y : CpuM α} (hx : Silent x) (hy : Silent y) :
    Silent (if p then x else y) := by
  split_ifs
  · exact hx
  · exact hy

theorem onMmu {x : MmuM α} {ok : Mmu → Prop} {val : Mmu → α} (hx : Reads x ok val) : Silent (Cpu.onMmu x) where
  run h := by
    obtain ⟨⟨b, mmu⟩, hrun, heq⟩ := Option.bind_eq_some_iff.mp h
    cases heq
    exact ⟨rfl, (hx.some hrun).2.2, rfl⟩

end Silent

/-- The loop that loads bytes one by one. -/
theorem loadBytes_silent (l : List Nat) (address : Nat → Nat) : Silent (Cpu.onMmu (l.mapM fun i => do
    let (b, _) ← Mmu.load (address i)
    pure b)) :=
  .onMmu (Acts.mapM (fun i => (Mmu.load_reads (address i)).bind fun r => Acts.pure r.1) l)

theorem readString_silent (addr len : U32) : Silent (readString addr len) :=
  loadBytes_silent (List.range len.toNat) fun i => (addr.toNat + i) % 2 ^ 32

theorem handleAdviceWrite_silent (ptr len : U64) : Silent (handleAdviceWrite ptr len) :=
  (loadBytes_silent (List.range len.toNat) fun i => (ptr.toNat + i) % 2 ^ 64).bind fun _ =>
    .modify fun _ => ⟨rfl, rfl, rfl⟩

theorem handleJoltCycleMarker_silent (ptr len event : U32) : Silent (handleJoltCycleMarker ptr len event) :=
  .ite ((readString_silent ptr len).bind fun _ => .pure _) (.ite (.pure _) .failure)

theorem handleJoltPrint_silent (ptr len event : U32) : Silent (handleJoltPrint ptr len event) := by
  refine (readString_silent ptr len).bind fun _ => ?_
  unfold guard
  exact .ite (.pure _) .failure

theorem hostIo_silent : Silent hostIo :=
  Silent.get.bind fun _ => .ite (handleAdviceWrite_silent ..)
    (.ite (handleJoltCycleMarker_silent ..) (.ite (handleJoltPrint_silent ..) (.pure _)))

/-! ## One operation -/

variable {cpu cpu' : Cpu} {cycles : List Cycle} {address : U64} {access : RamAccess} {op : BasicOp}

/-- What an operation did to memory, by its access. -/
def RamAccess.Between (m m' : Mmu) : RamAccess → Prop
  | .read r => r.address % 8 = 0 ∧ r.value = m.dword r.address ∧ m ≈ m'
  | .write w => w.address % 8 = 0 ∧ w.preValue = m.dword w.address ∧ m.FieldStorable 8 w.address ∧
      m.storedField 8 w.address w.postValue ≈ m'
  | .noOp => m ≈ m'

namespace BasicOp

/-- An operation writes no register but `rd`. -/
theorem exec_read (h : op.exec address cpu = .some (access, cpu')) {r : Nat} (hr : op.rd ≠ .some r) :
    cpu'.x.read r = cpu.x.read r := by
  have hwrite {rd : Nat} {value : U64} (hrd : op.rd = .some rd) : (cpu.x.write rd value).read r = cpu.x.read r :=
    Registers.read_write_ne _ _ fun heq => hr (heq ▸ hrd)
  cases op with
  | noOp | VirtualLW | VirtualSW => cases h
  | LD o =>
    obtain ⟨value, -, hx, -⟩ := exec_LD h
    rw [hx]
    exact hwrite rfl
  | SD o =>
    obtain ⟨pre, -, hx, -⟩ := exec_SD h
    rw [hx]
  | VirtualAdviceLoad o =>
    obtain ⟨⟨value, tape⟩, -, hrun⟩ := Option.bind_eq_some_iff.mp h
    cases hrun
    exact hwrite rfl
  | VirtualHostIo o =>
    obtain ⟨⟨_, cpu1⟩, hrun, heq⟩ := Option.bind_eq_some_iff.mp h
    cases heq
    rw [(hostIo_silent.run hrun).1]
  | branch op o | assert op o | align op o =>
    simp only [exec] at h
    split at h <;> cases h
    all_goals rfl
  | FENCE | EBREAK o =>
    cases h
    rfl
  | _ =>
    cases h
    exact hwrite rfl

theorem exec_between (h : op.exec address cpu = .some (access, cpu')) : access.Between cpu.mmu cpu'.mmu := by
  cases op with
  | noOp | VirtualLW | VirtualSW => cases h
  | LD o =>
    obtain ⟨⟨⟨value, r⟩, cpu1⟩, hload, hrest⟩ := Option.bind_eq_some_iff.mp h
    obtain ⟨⟨loaded, mmu⟩, hmmu, heq⟩ := Option.bind_eq_some_iff.mp hload
    cases heq
    cases hrest
    obtain ⟨⟨h8, -⟩, hvalue, hsame⟩ := (Mmu.loadDoubleword_reads (BitVec.isLt _)).some hmmu
    cases hvalue
    exact ⟨h8, rfl, hsame⟩
  | SD o =>
    obtain ⟨⟨w, cpu1⟩, hstore, hrest⟩ := Option.bind_eq_some_iff.mp h
    obtain ⟨⟨w', mmu⟩, hmmu, heq⟩ := Option.bind_eq_some_iff.mp hstore
    cases heq
    cases hrest
    obtain ⟨⟨h8, hst⟩, hvalue, hsame⟩ := (Mmu.storeDoubleword_acts (BitVec.isLt _) _).some hmmu
    cases hvalue
    exact ⟨h8, rfl, hst, hsame⟩
  | VirtualAdviceLoad o =>
    obtain ⟨⟨value, tape⟩, -, hrun⟩ := Option.bind_eq_some_iff.mp h
    cases hrun
    exact Setoid.refl cpu.mmu
  | VirtualHostIo o =>
    obtain ⟨⟨_, cpu1⟩, hrun, heq⟩ := Option.bind_eq_some_iff.mp h
    cases heq
    exact (hostIo_silent.run hrun).2.1
  | branch op o | assert op o | align op o =>
    simp only [exec] at h
    split at h <;> cases h
    all_goals exact Setoid.refl cpu.mmu
  | _ =>
    cases h
    exact Setoid.refl cpu.mmu

end BasicOp

/-! ## Cycles -/

namespace BasicInstruction

/-- The registers after an operation are those before it with what `rd` holds. -/
theorem read_eq_update (h : op.exec address cpu = .some (access, cpu')) :
    cpu'.x.read = match op.rd with
      | .some r => Function.update cpu.x.read r (cpu'.x.read r)
      | .none => cpu.x.read := by
  funext k
  cases hrd : op.rd with
  | none => exact BasicOp.exec_read h (by rw [hrd]; exact nofun)
  | some r =>
    dsimp only
    rw [Function.update_apply]
    split_ifs with hk
    · rw [hk]
    · exact BasicOp.exec_read h (by rw [hrd]; exact fun heq => hk (Option.some.inj heq).symm)

theorem registerLog_recorded (h : op.exec address cpu = .some (access, cpu')) {c : Cycle}
    (hop : c.instruction.op = op) (h1 : c.rs1 = op.normalize.rs1.map cpu.x.read)
    (h2 : c.rs2 = op.normalize.rs2.map cpu.x.read)
    (hd : c.rd = op.normalize.rd.map fun r => (cpu.x.read r, cpu'.x.read r)) :
    Consistent cpu.x.read c.registerLog ∧ replay cpu.x.read c.registerLog = cpu'.x.read := by
  have hread : ∀ o : Option Nat, ∀ a ∈ (o.bind fun r => (o.map cpu.x.read).map (CellAccess.read r)).toList,
      a = CellAccess.read a.cell (cpu.x.read a.cell) := by
    intro o a ha
    cases o with
    | none => cases ha
    | some r =>
      cases List.mem_singleton.mp ha
      rfl
  have hsources : Consistent cpu.x.read c.sourceLog ∧ replay cpu.x.read c.sourceLog = cpu.x.read := by
    refine consistent_reads fun a ha => ?_
    rw [Cycle.sourceLog, hop, h1, h2] at ha
    exact (List.mem_append.mp ha).elim (hread _ a) (hread _ a)
  have hrd : Consistent cpu.x.read c.rdLog ∧ replay cpu.x.read c.rdLog = cpu'.x.read := by
    rw [read_eq_update h, Cycle.rdLog, hop, hd, BasicOp.rd]
    cases op.normalize.rd with
    | none => exact ⟨trivial, rfl⟩
    | some r => exact ⟨⟨rfl, trivial⟩, rfl⟩
  rw [Cycle.registerLog, consistent_append, replay_append, hsources.2]
  exact ⟨⟨hsources.1, hrd.1⟩, hrd.2⟩

theorem ramLog_recorded {m m' : Mmu} (h : access.Between m m') {c : Cycle} (hc : c.ramAccess = access) :
    Consistent m.dwords (c.ramLog m.layout) ∧ replay m.dwords (c.ramLog m.layout) = m'.dwords := by
  unfold Cycle.ramLog
  rw [hc]
  cases access with
  | read r =>
    obtain ⟨h8, hvalue, hsame⟩ := h
    have hea : 8 * (r.address / 8) = r.address := by omega
    have hdword : m.dwords (r.address / 8) = r.value := by rw [Mmu.dwords, hea, hvalue]
    refine ⟨⟨hdword.symm, trivial⟩, ?_⟩
    dsimp only
    rw [Mmu.dwords_congr hsame, ← hdword]
    exact apply_read
  | write w =>
    obtain ⟨h8, hvalue, hst, hsame⟩ := h
    have hea : 8 * (w.address / 8) = w.address := by omega
    refine ⟨⟨?_, trivial⟩, ?_⟩
    · rw [Mmu.dwords, hea, hvalue]
    · dsimp only
      rw [Mmu.dwords_congr hsame, Mmu.dwords_storedField h8 hst, hvalue]
      rfl
  | noOp => exact ⟨trivial, (Mmu.dwords_congr h).symm⟩

theorem traceRaw_recorded {i : BasicInstruction} (h : i.traceRaw cpu = .some (cycles, cpu')) :
    Records cpu cycles cpu' := by
  obtain ⟨access, hexec, rfl⟩ := traceRaw_exec h
  have hmem := BasicOp.exec_between hexec
  refine {
    layout := ?_
    registers := ?_
    registersAfter := ?_
    ram := ?_
    ramAfter := ?_
    aligned := ?_
    named := ?_ }
  · cases access with
    | read r => exact Mmu.layout_congr hmem.2.2
    | write w => rw [Mmu.layout_congr hmem.2.2.2, Mmu.layout_storedField]
    | noOp => exact Mmu.layout_congr hmem
  · rw [List.flatMap_singleton]
    exact (registerLog_recorded hexec rfl rfl rfl rfl).1
  · rw [List.flatMap_singleton]
    exact (registerLog_recorded hexec rfl rfl rfl rfl).2
  · rw [List.flatMap_singleton]
    exact (ramLog_recorded hmem rfl).1
  · rw [List.flatMap_singleton]
    exact (ramLog_recorded hmem rfl).2
  · intro c hc
    cases List.mem_singleton.mp hc
    cases access with
    | read r => exact hmem.1
    | write w => exact hmem.1
    | noOp => trivial
  · intro c hc
    cases List.mem_singleton.mp hc
    exact ⟨Option.isSome_map, Option.isSome_map, Option.isSome_map⟩

theorem traceAllRaw_recorded {is : List BasicInstruction} (h : traceAllRaw is cpu = .some (cycles, cpu')) :
    Records cpu cycles cpu' := by
  induction is generalizing cpu cycles with
  | nil =>
    cases h
    exact .silent rfl (Setoid.refl _)
  | cons i is ih =>
    obtain ⟨⟨c, cpu1⟩, hone, hrest⟩ := Option.bind_eq_some_iff.mp h
    obtain ⟨⟨cs, cpu2⟩, hall, hpure⟩ := Option.bind_eq_some_iff.mp hrest
    cases hpure
    exact (traceRaw_recorded hone).append (ih hall)

theorem traceAll_recorded {is : List BasicInstruction} (h : traceAll is cpu = .some (cycles, cpu')) :
    Records cpu cycles cpu' := by
  rw [traceAll_eq_map] at h
  exact traceAllRaw_recorded h

end BasicInstruction

/-! ## Instructions -/

theorem AdviceFn.run_silent (f : AdviceFn) : Silent f.run := by
  induction f with
  | done advice => exact .pure _
  | fail => exact .failure
  | readRegister reg k ih => exact Silent.get.bind fun cpu => ih _
  | loadDoubleword address k ih =>
    exact (Silent.onMmu (Mmu.loadDoubleword_reads (BitVec.isLt _))).bind fun r => ih _

/-- **An instruction's trace records what it does.** -/
theorem Instruction.trace_recorded {inlines : Inlines} {i : Instruction}
    (h : i.trace inlines cpu = .some (cycles, cpu')) : Records cpu cycles cpu' := by
  unfold Instruction.trace at h
  split_ifs at h
  · obtain ⟨⟨is, cpu1⟩, hseq, hrun⟩ := Option.bind_eq_some_iff.mp h
    obtain ⟨is', -, hpure⟩ := Option.bind_eq_some_iff.mp hseq
    cases hpure
    exact BasicInstruction.traceAllRaw_recorded hrun
  cases hop : i.op with
  | basic op =>
    simp only [Instruction.traceRaw, hop] at h
    exact BasicInstruction.traceRaw_recorded h
  | seq op =>
    rw [Instruction.traceRaw_seq inlines hop] at h
    obtain ⟨ops, -, h⟩ := Option.bind_eq_some_iff.mp h
    obtain ⟨⟨cs, cpu1⟩, hrun, hpure⟩ := Option.bind_eq_some_iff.mp h
    cases hpure
    have hreserve : (op.reserve cpu).x = cpu.x ∧ (op.reserve cpu).mmu = cpu.mmu := by
      cases op <;> exact ⟨rfl, rfl⟩
    have hrelease : (op.release cpu1).x = cpu1.x ∧ (op.release cpu1).mmu = cpu1.mmu := by
      cases op <;> exact ⟨rfl, rfl⟩
    exact .after_silent hreserve.1 (by rw [hreserve.2])
      ((BasicInstruction.traceAll_recorded hrun).then_silent hrelease.1 (by rw [hrelease.2]))
  | inline op =>
    simp only [Instruction.traceRaw, hop, Fallible.bind_apply, Fallible.lift_apply,
      Option.bind_eq_bind, Option.bind_assoc, Option.bind_some] at h
    obtain ⟨reg, -, h⟩ := Option.bind_eq_some_iff.mp h
    obtain ⟨⟨advice, cpu1⟩, hadvice, h⟩ := Option.bind_eq_some_iff.mp h
    obtain ⟨hx, hm, -⟩ := (reg.buildAdvice op.operands).run_silent.run hadvice
    cases advice with
    | none => exact .after_silent hx hm (BasicInstruction.traceAll_recorded h)
    | some values =>
      obtain ⟨⟨ops, cpu2⟩, hfilled, h⟩ := Option.bind_eq_some_iff.mp h
      obtain ⟨ops', -, hpure⟩ := Option.bind_eq_some_iff.mp hfilled
      cases hpure
      exact .after_silent hx hm (BasicInstruction.traceAll_recorded h)

/-! ## Ticks -/

/-- A word is fetched by reading. -/
theorem Mmu.fetchWord_reads (address : Nat) : ∃ ok val, Reads (fetchWord address) ok val := by
  have hloop : ∀ ea, Reads ((List.range 4).mapM fun i => loadRaw ((ea + i) % 2 ^ 64)) _ _ :=
    fun ea => Acts.mapM (fun i => loadRaw_reads ((ea + i) % 2 ^ 64)) _
  unfold fetchWord
  split_ifs
  · unfold loadWordRaw
    split_ifs
    · have hword : ∃ ok val, Reads (Memory.readWord (address - ramStartAddress)) ok val := by
        unfold Memory.readWord
        split_ifs
        · exact ⟨_, _, (MemoryData.accessU64_reads _).bind fun _ => Acts.pure _⟩
        · exact ⟨_, _, (Memory.readBytes_reads _ 4).bind fun _ => Acts.pure _⟩
      obtain ⟨ok, val, hword⟩ := hword
      exact ⟨_, _, (assertLoad_reads address).bind fun _ => onMemory_acts hword⟩
    · exact ⟨_, _, ((hloop address).bind fun _ => Acts.pure _).bind fun _ => Acts.pure _⟩
  · exact ⟨_, _, (hloop address).bind fun _ => Acts.pure _⟩

namespace Cpu

theorem fetchDecode_silent : Silent fetchDecode := by
  refine Silent.get.bind fun cpu => ?_
  obtain ⟨ok, val, hfetch⟩ := Mmu.fetchWord_reads cpu.pc.toNat
  exact (Silent.onMmu hfetch).bind fun word => .bind (.modify fun _ => ⟨rfl, rfl, rfl⟩) fun _ => .lift _

theorem writeCsrRaw_keeps {address : Nat} {value : U64} (h : cpu.writeCsrRaw address value = .some cpu') :
    cpu'.x = cpu.x ∧ cpu'.mmu = cpu.mmu ∧ cpu'.reserved = cpu.reserved := by
  unfold writeCsrRaw at h
  split_ifs at h <;> cases h
  all_goals exact ⟨rfl, rfl, rfl⟩

theorem takeTrap_silent (t : TrapType) (value instructionAddress : U64) (newMode : PrivilegeMode) :
    Silent (takeTrap t value instructionAddress newMode) where
  run {cpu _ cpu'} h := by
    obtain ⟨current, -, h⟩ := Option.bind_eq_some_iff.mp h
    cases newMode with
    | machine | supervisor | user =>
      simp only [Option.bind_eq_bind, Option.bind_some] at h
      obtain ⟨cpu1, h1, h⟩ := Option.bind_eq_some_iff.mp h
      obtain ⟨cpu2, h2, h⟩ := Option.bind_eq_some_iff.mp h
      obtain ⟨cpu3, h3, h⟩ := Option.bind_eq_some_iff.mp h
      obtain ⟨pc, -, h⟩ := Option.bind_eq_some_iff.mp h
      obtain ⟨hx1, hm1, hr1⟩ := writeCsrRaw_keeps h1
      obtain ⟨hx2, hm2, hr2⟩ := writeCsrRaw_keeps h2
      obtain ⟨hx3, hm3, hr3⟩ := writeCsrRaw_keeps h3
      first
      | obtain ⟨status, -, h⟩ := Option.bind_eq_some_iff.mp h
        obtain ⟨cpu4, h4, h⟩ := Option.bind_eq_some_iff.mp h
        cases h
        obtain ⟨hx4, hm4, hr4⟩ := writeCsrRaw_keeps h4
        refine ⟨hx4.trans (hx3.trans (hx2.trans hx1)), ?_, hr4.trans (hr3.trans (hr2.trans hr1))⟩
        rw [show cpu'.mmu = cpu.mmu from hm4.trans (hm3.trans (hm2.trans hm1))]
      | cases h
    | reserved => cases h

theorem handleTrap_silent (t : TrapType) (value instructionAddress : U64) (isInterrupt : Bool) :
    Silent (handleTrap t value instructionAddress isInterrupt) := by
  refine Silent.get.bind fun cpu => ?_
  have htaken (enabled : Bool) : Silent (if enabled then do
      takeTrap t value instructionAddress (cpu.newPrivilegeMode t.cause isInterrupt)
      pure true
      else pure false) :=
    .ite ((takeTrap_silent ..).bind fun _ => .pure _) (.pure _)
  cases isInterrupt with
  | true => exact (Silent.lift _).bind htaken
  | false => exact (Silent.pure true).bind htaken

theorem handleInterrupt_silent (instructionAddress : U64) : Silent (handleInterrupt instructionAddress) := by
  refine Silent.get.bind fun cpu => ?_
  induction interruptOrder with
  | nil => exact .pure _
  | cons interrupt rest ih =>
    refine .ite (Silent.get.bind fun now => (handleTrap_silent ..).bind fun taken => ?_) ih
    exact .ite (.modify fun _ => ⟨rfl, rfl, rfl⟩) ih

theorem advanceClock_silent : Silent advanceClock where
  run {cpu _ cpu'} h := by
    simp only [advanceClock, Fallible.bind_apply, Fallible.modify_apply, Fallible.get_apply, Fallible.lift_apply,
      Option.bind_eq_bind, Option.bind_some, Option.bind_assoc] at h
    obtain ⟨cpu1, hwrite, hset⟩ := Option.bind_eq_some_iff.mp h
    cases hset
    obtain ⟨hx, hm, hr⟩ := writeCsrRaw_keeps hwrite
    exact ⟨hx, by rw [hm], hr⟩

theorem wake_silent : Silent wake :=
  Silent.get.bind fun _ => (Silent.lift _).bind fun _ => Silent.get.bind fun _ => (Silent.lift _).bind fun _ =>
    .ite (.modify fun _ => ⟨rfl, rfl, rfl⟩) (.pure _)

theorem tickOperate_recorded {inlines : Inlines} (h : tickOperate inlines true cpu = .some (cycles, cpu')) :
    Records cpu cycles cpu' := by
  simp only [tickOperate, Fallible.bind_apply, Fallible.get_apply, Option.bind_eq_bind, Option.bind_some, if_true] at h
  split_ifs at h
  · obtain ⟨⟨_, cpu1⟩, hwake, hpure⟩ := Option.bind_eq_some_iff.mp h
    cases hpure
    obtain ⟨hx, hm, -⟩ := wake_silent.run hwake
    exact .silent hx hm
  · obtain ⟨⟨i, cpu1⟩, hfetch, htrace⟩ := Option.bind_eq_some_iff.mp h
    obtain ⟨hx, hm, -⟩ := fetchDecode_silent.run hfetch
    exact .after_silent hx hm (Instruction.trace_recorded htrace)

/-- **A tick records what it does.** -/
theorem tick_recorded {inlines : Inlines} (h : tick inlines true cpu = .some (cycles, cpu')) :
    Records cpu cycles cpu' := by
  simp only [tick, Fallible.bind_apply, Fallible.get_apply, Option.bind_eq_bind, Option.bind_some] at h
  obtain ⟨⟨cs, cpu1⟩, hoperate, h⟩ := Option.bind_eq_some_iff.mp h
  obtain ⟨⟨_, cpu2⟩, hinterrupt, h⟩ := Option.bind_eq_some_iff.mp h
  obtain ⟨⟨_, cpu3⟩, hclock, hpure⟩ := Option.bind_eq_some_iff.mp h
  cases hpure
  obtain ⟨hx, hm, -⟩ := (handleInterrupt_silent _).run hinterrupt
  obtain ⟨hx', hm', -⟩ := advanceClock_silent.run hclock
  exact ((tickOperate_recorded hoperate).then_silent hx hm).then_silent hx' hm'

end Cpu

end LightningJolt
