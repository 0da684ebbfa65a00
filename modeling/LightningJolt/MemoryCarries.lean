/-
The emulator over two memories. A relation of memories that the accesses to a
doubleword keep is kept by everything the emulator does: the rest of its state
is the same on both sides, and it does the same on both.
-/
import LightningJolt.Carries
import LightningJolt.Emission
import LightningJolt.Tick

namespace LightningJolt

open Fallible

/-- A relation of memories, with a bound on the log of the first, that every
access to a doubleword keeps. -/
structure MemoryRelation where
  Within : MemoryData → Prop
  Sim : MemoryData → MemoryData → Prop
  access : ∀ index, Carries Within Sim (MemoryData.accessU64 index)
  assign : ∀ index value, Carries Within Sim (MemoryData.assignU64 index value)

namespace MemoryRelation

variable (R : MemoryRelation)

/-! ## Memory -/

theorem readByte (address : Nat) : Carries R.Within R.Sim (Memory.readByte address) :=
  (R.access _).bind fun _ => .pure _

theorem readBytes (address width : Nat) : Carries R.Within R.Sim (Memory.readBytes address width) :=
  (Carries.mapM (fun i => R.readByte (address + i)) _).bind fun _ => .pure _

theorem readHalfword (address : Nat) : Carries R.Within R.Sim (Memory.readHalfword address) :=
  .ite ((R.access _).bind fun _ => .pure _) ((R.readBytes address 2).bind fun _ => .pure _)

theorem readWord (address : Nat) : Carries R.Within R.Sim (Memory.readWord address) :=
  .ite ((R.access _).bind fun _ => .pure _) ((R.readBytes address 4).bind fun _ => .pure _)

theorem readDoubleword (address : Nat) : Carries R.Within R.Sim (Memory.readDoubleword address) :=
  .ite (R.access _) (.ite ((R.readWord _).bind fun _ => (R.readWord _).bind fun _ => .pure _) (R.readBytes address 8))

theorem writeByte (address : Nat) (value : U8) : Carries R.Within R.Sim (Memory.writeByte address value) :=
  (R.access _).bind fun _ => R.assign _ _

theorem writeBytes (address : Nat) (value : U64) (width : Nat) :
    Carries R.Within R.Sim (Memory.writeBytes address value width) :=
  .forM (fun i => R.writeByte (address + i) (leByte value i)) _

theorem writeHalfword (address : Nat) (value : U16) : Carries R.Within R.Sim (Memory.writeHalfword address value) :=
  .ite ((R.access _).bind fun _ => R.assign _ _) (R.writeBytes ..)

theorem writeWord (address : Nat) (value : U32) : Carries R.Within R.Sim (Memory.writeWord address value) :=
  .ite ((R.access _).bind fun _ => R.assign _ _) (R.writeBytes ..)

theorem writeDoubleword (address : Nat) (value : U64) :
    Carries R.Within R.Sim (Memory.writeDoubleword address value) :=
  .ite (R.assign _ _) (.ite ((R.writeWord ..).bind fun _ => R.writeWord ..) (R.writeBytes ..))

/-! ## The memory management unit -/

/-- The same device over related memories. -/
def SimMmu (m r : Mmu) : Prop := r = { m with memory := r.memory } ∧ R.Sim m.memory r.memory

abbrev CarriesMmu {α : Type} (x : MmuM α) : Prop := Carries (fun m : Mmu => R.Within m.memory) R.SimMmu x

variable {R}

theorem SimMmu.joltDevice {m r : Mmu} (h : R.SimMmu m r) : r.joltDevice = m.joltDevice := by rw [h.1]

theorem onMemory {α : Type} {x : MemM α} (hx : Carries R.Within R.Sim x) : R.CarriesMmu (Mmu.onMemory x) where
  within h hW := by
    obtain ⟨⟨b, m1⟩, hrun, heq⟩ := Option.bind_eq_some_iff.mp h
    cases heq
    exact hx.within hrun hW
  run {m _ _ r} h hW hsim := by
    obtain ⟨⟨b, m1⟩, hrun, heq⟩ := Option.bind_eq_some_iff.mp h
    cases heq
    obtain ⟨r1, hr, hsim1⟩ := hx.run hrun hW hsim.2
    refine ⟨{ r with memory := r1 }, by rw [Mmu.onMemory, hr]; rfl, ?_, hsim1⟩
    rw [hsim.1]

/-- A computation on the device alone. -/
theorem onDevice {α : Type} {x : MmuM α} (f : Option JoltDevice → Option (α × Option JoltDevice))
    (h : ∀ m, x m = (f m.joltDevice).map fun p => (p.1, { m with joltDevice := p.2 })) : R.CarriesMmu x where
  within {m _ _} hx hW := by
    rw [h] at hx
    obtain ⟨p, -, heq⟩ := Option.map_eq_some_iff.mp hx
    cases heq
    exact hW
  run {m _ _ r} hx _ hsim := by
    rw [h] at hx
    obtain ⟨p, hf, heq⟩ := Option.map_eq_some_iff.mp hx
    cases heq
    refine ⟨{ r with joltDevice := p.2 }, by rw [h, hsim.joltDevice, hf]; rfl, ?_, hsim.2⟩
    rw [hsim.1]

theorem deviceLoad (address : Nat) : R.CarriesMmu (Mmu.deviceLoad address) :=
  onDevice (fun d => do
    let d ← d
    let b ← d.load address
    .some (b, .some d)) fun m => by
    cases hd : m.joltDevice with
    | none => simp [Mmu.deviceLoad, hd]
    | some d =>
      have hm : { m with joltDevice := .some d } = m := by rw [← hd]
      cases hb : d.load address <;> simp [Mmu.deviceLoad, hd, hb, hm]

theorem loadRawDevice (ea : Nat) : R.CarriesMmu (Mmu.loadRawDevice ea) :=
  onDevice (fun d => do
    let d ← d
    if Mmu.deviceReadable d ea then
      let b ← d.load ea
      .some (b, .some d)
    else .none) fun m => by
    cases hd : m.joltDevice with
    | none => simp [Mmu.loadRawDevice, hd]
    | some d =>
      have hm : { m with joltDevice := .some d } = m := by rw [← hd]
      by_cases hr : Mmu.deviceReadable d ea = true
      · cases hb : d.load ea <;> simp [Mmu.loadRawDevice, hd, hb, hr, hm]
      · simp [Mmu.loadRawDevice, hd, hr]

theorem storeRawDevice (ea : Nat) (value : U8) : R.CarriesMmu (Mmu.storeRawDevice ea value) :=
  onDevice (fun d => do
    let d ← d
    let d ← d.store ea value
    .some ((), .some d)) fun m => by
    cases hd : m.joltDevice with
    | none => simp [Mmu.storeRawDevice, hd]
    | some d => cases hs : d.store ea value <;> simp [Mmu.storeRawDevice, hd, hs]

/-- A check of an address, which goes by the layout of the device. -/
theorem assertAddress {x : MmuM Unit} (ea : Nat) (isWrite : Bool)
    (h : ∀ m, x m = if m.validAddress ea isWrite then .some ((), m) else .none) : R.CarriesMmu x :=
  onDevice (fun d => do
    guard (({ memory := .empty, joltDevice := d } : Mmu).validAddress ea isWrite)
    .some ((), d)) fun m => by
    have hdevice : ({ memory := .empty, joltDevice := m.joltDevice } : Mmu).validAddress ea isWrite =
      m.validAddress ea isWrite := rfl
    rw [h]
    cases hvalid : m.validAddress ea isWrite <;> simp [hdevice, hvalid]

theorem assertLoad (ea : Nat) : R.CarriesMmu (Mmu.assertEffectiveLoadAddress ea) :=
  assertAddress ea false fun _ => rfl

theorem assertStore (ea : Nat) : R.CarriesMmu (Mmu.assertEffectiveStoreAddress ea) :=
  assertAddress ea true fun _ => rfl

theorem loadRaw (ea : Nat) : R.CarriesMmu (Mmu.loadRaw ea) :=
  (assertLoad ea).bind fun _ => .ite (onMemory (R.readByte _)) (.ite .failure (loadRawDevice ea))

theorem loadRawBytes (ea width : Nat) : R.CarriesMmu (Mmu.loadRawBytes ea width) :=
  (Carries.mapM (fun i => loadRaw ((ea + i) % 2 ^ 64)) _).bind fun _ => .pure _

/-- The two paths of the wider raw loads. -/
theorem loadPath {w : Nat} {x : MemM (BitVec w)} (ea n : Nat) (hx : Carries R.Within R.Sim x) {y : MmuM (BitVec w)}
    (hy : R.CarriesMmu y) :
    R.CarriesMmu (if Mmu.fastPath ea n then do
      Mmu.assertEffectiveLoadAddress ea
      Mmu.onMemory x
      else y) :=
  .ite ((assertLoad ea).bind fun _ => onMemory hx) hy

theorem loadHalfwordRaw (ea : Nat) : R.CarriesMmu (Mmu.loadHalfwordRaw ea) :=
  loadPath ea 2 (R.readHalfword _) ((loadRawBytes ea 2).bind fun _ => .pure _)

theorem loadWordRaw (ea : Nat) : R.CarriesMmu (Mmu.loadWordRaw ea) :=
  loadPath ea 4 (R.readWord _) ((loadRawBytes ea 4).bind fun _ => .pure _)

theorem loadDoublewordRaw (ea : Nat) : R.CarriesMmu (Mmu.loadDoublewordRaw ea) :=
  loadPath ea 8 (R.readDoubleword _) (loadRawBytes ea 8)

theorem storeRaw (ea : Nat) (value : U8) : R.CarriesMmu (Mmu.storeRaw ea value) :=
  .ite ((assertStore ea).bind fun _ => onMemory (R.writeByte _ _))
    (.ite .failure ((assertStore ea).bind fun _ => storeRawDevice ea value))

theorem storeRawBytes (ea : Nat) (value : U64) (width : Nat) : R.CarriesMmu (Mmu.storeRawBytes ea value width) :=
  .forM (fun i => storeRaw ((ea + i) % 2 ^ 64) (leByte value i)) _

theorem storeDoublewordRaw (ea : Nat) (value : U64) : R.CarriesMmu (Mmu.storeDoublewordRaw ea value) :=
  .ite ((assertStore ea).bind fun _ => onMemory (R.writeDoubleword _ _)) (storeRawBytes ea value 8)

theorem traceBytes (ea address : Nat) : R.CarriesMmu (Mmu.traceBytes ea address) :=
  have hbyte (i : Nat) := Carries.ite (deviceLoad (address + i)) (onMemory (R.readByte (address + i - ramStartAddress)))
  (Carries.mapM hbyte _).bind fun _ => .pure _

theorem traceLoad (ea : Nat) : R.CarriesMmu (Mmu.traceLoad ea) := (traceBytes ..).bind fun _ => .pure _

theorem traceStore (ea : Nat) (value : U64) : R.CarriesMmu (Mmu.traceStore ea value) :=
  (assertStore ea).bind fun _ => (traceBytes ea ea).bind fun _ => .pure _

theorem load (ea : Nat) : R.CarriesMmu (Mmu.load ea) :=
  (traceLoad ea).bind fun _ => (loadRaw ea).bind fun _ => .pure _

theorem loadDoubleword (ea : Nat) : R.CarriesMmu (Mmu.loadDoubleword ea) :=
  (Carries.check _).bind fun _ => (traceLoad ea).bind fun _ => (loadDoublewordRaw ea).bind fun _ => .pure _

theorem storeDoubleword (ea : Nat) (value : U64) : R.CarriesMmu (Mmu.storeDoubleword ea value) :=
  (Carries.check _).bind fun _ => (traceStore ea value).bind fun _ =>
    (storeDoublewordRaw ea value).bind fun _ => .pure _

theorem fetchWord (address : Nat) : R.CarriesMmu (Mmu.fetchWord address) :=
  .ite (loadWordRaw address) ((Carries.mapM (fun i => loadRaw ((address + i) % 2 ^ 64)) _).bind fun _ => .pure _)

/-! ## The processor -/

/-- The same processor over related memories. -/
def SimCpu (R : MemoryRelation) (c r : Cpu) : Prop := r = { c with mmu := r.mmu } ∧ R.SimMmu c.mmu r.mmu

variable (R) in
abbrev CarriesCpu {α : Type} (x : CpuM α) : Prop :=
  Carries (fun c : Cpu => R.Within c.mmu.memory) R.SimCpu x

theorem onMmu {α : Type} {x : MmuM α} (hx : R.CarriesMmu x) : R.CarriesCpu (Cpu.onMmu x) where
  within h hW := by
    obtain ⟨⟨b, m1⟩, hrun, heq⟩ := Option.bind_eq_some_iff.mp h
    cases heq
    exact hx.within hrun hW
  run {c _ _ r} h hW hsim := by
    obtain ⟨⟨b, m1⟩, hrun, heq⟩ := Option.bind_eq_some_iff.mp h
    cases heq
    obtain ⟨r1, hr, hsim1⟩ := hx.run hrun hW hsim.2
    refine ⟨{ r with mmu := r1 }, by rw [Cpu.onMmu, hr]; rfl, ?_, hsim1⟩
    rw [hsim.1]

/-- A computation that does not look at memory. -/
theorem blind {α : Type} {x : CpuM α}
    (h : ∀ cpu mmu, x { cpu with mmu := mmu } = (x cpu).map fun p => (p.1, { p.2 with mmu := mmu })) :
    R.CarriesCpu x :=
  have hmmu {c a c'} (hx : x c = .some (a, c')) : c'.mmu = c.mmu := by
    have hself := h c c.mmu
    rw [hx, Option.map_some] at hself
    exact congrArg (fun p => p.2.mmu) (Option.some.inj hself)
  { within := fun hx hW => by rwa [hmmu hx] at hW
    run := fun {c a c' r} hx _ hsim =>
      ⟨{ c' with mmu := r.mmu }, by rw [hsim.1, h, hx]; rfl, rfl, by rw [hmmu hx]; exact hsim.2⟩ }

theorem getCpu {α : Type} {f : Cpu → CpuM α} (hblind : ∀ cpu mmu, f { cpu with mmu := mmu } = f cpu)
    (hf : ∀ cpu, R.CarriesCpu (f cpu)) : R.CarriesCpu (get >>= f) :=
  .get_bind (fun {s r} h => by rw [h.1, hblind]) hf

theorem modifyCpu {f : Cpu → Cpu} (h : ∀ cpu mmu, f { cpu with mmu := mmu } = { f cpu with mmu := mmu }) :
    R.CarriesCpu (modify f) :=
  blind fun cpu mmu => by rw [modify_apply, h]; rfl

/-- The loop that loads bytes one by one. -/
theorem loadBytes (l : List Nat) (address : Nat → Nat) : R.CarriesCpu (Cpu.onMmu (l.mapM fun i => do
    let (b, _) ← Mmu.load (address i)
    pure b)) :=
  onMmu (.mapM (fun i => (load (address i)).bind fun _ => .pure _) l)

theorem readString (addr len : U32) : R.CarriesCpu (readString addr len) :=
  loadBytes (List.range len.toNat) fun i => (addr.toNat + i) % 2 ^ 32

theorem handleAdviceWrite (ptr len : U64) : R.CarriesCpu (handleAdviceWrite ptr len) :=
  (loadBytes (List.range len.toNat) fun i => (ptr.toNat + i) % 2 ^ 64).bind fun _ => modifyCpu fun _ _ => rfl

theorem hostIo : R.CarriesCpu hostIo := by
  refine getCpu (fun _ _ => rfl) fun cpu => .ite (handleAdviceWrite ..) (.ite ?_ (.ite ?_ (.pure _)))
  · exact .ite ((readString ..).bind fun _ => .pure _) (.ite (.pure _) .failure)
  · exact (readString ..).bind fun _ => .check _

end MemoryRelation

namespace BasicOp

theorem exec_carries {R : MemoryRelation} (op : BasicOp) (address : U64) : R.CarriesCpu (op.exec address) := by
  cases op with
  | noOp | VirtualLW | VirtualSW => exact .failure
  | LD o =>
    exact MemoryRelation.getCpu (fun _ _ => rfl) fun cpu =>
      (MemoryRelation.onMmu (MemoryRelation.loadDoubleword _)).bind fun r =>
        (MemoryRelation.modifyCpu fun _ _ => rfl).bind fun _ => .pure _
  | SD o =>
    exact MemoryRelation.getCpu (fun _ _ => rfl) fun cpu =>
      (MemoryRelation.onMmu (MemoryRelation.storeDoubleword _ _)).bind fun w => .pure _
  | VirtualHostIo o => exact MemoryRelation.hostIo.bind fun _ => .pure _
  | FENCE => exact .pure _
  | VirtualAdviceLoad o =>
    refine MemoryRelation.blind fun cpu mmu => ?_
    simp only [exec]
    cases cpu.adviceTape.read o.imm.toNat <;> rfl
  | branch op o | assert op o | align op o =>
    refine MemoryRelation.blind fun cpu mmu => ?_
    simp only [exec]
    split_ifs <;> rfl
  | _ => exact MemoryRelation.blind fun cpu mmu => rfl

end BasicOp

namespace BasicInstruction

variable {R : MemoryRelation}

theorem traceRaw_carries (i : BasicInstruction) : R.CarriesCpu i.traceRaw where
  within h hW := by
    obtain ⟨access, hexec, -⟩ := traceRaw_exec h
    exact (i.op.exec_carries i.address).within hexec hW
  run {cpu _ _ r} h hW hsim := by
    obtain ⟨access, hexec, rfl⟩ := traceRaw_exec h
    obtain ⟨r', hr, hsim'⟩ := (i.op.exec_carries i.address).run hexec hW hsim
    refine ⟨r', ?_, hsim'⟩
    simp only [traceRaw, hr, Option.bind_eq_bind, Option.bind_some]
    rw [hsim.1, hsim'.1]
    rfl

theorem traceAllRaw_carries (is : List BasicInstruction) : R.CarriesCpu (traceAllRaw is) := by
  induction is with
  | nil => exact .pure _
  | cons i is ih => exact i.traceRaw_carries.bind fun c => ih.bind fun cs => .pure _

theorem traceAll_carries (is : List BasicInstruction) : R.CarriesCpu (traceAll is) := by
  induction is with
  | nil => exact .pure _
  | cons i is ih => exact i.inlineSequence.traceRaw_carries.bind fun c => ih.bind fun cs => .pure _

end BasicInstruction

theorem AdviceFn.run_carries {R : MemoryRelation} (f : AdviceFn) : R.CarriesCpu f.run := by
  induction f with
  | done advice => exact .pure _
  | fail => exact .failure
  | readRegister reg k ih => exact MemoryRelation.getCpu (fun _ _ => rfl) fun cpu => ih _
  | loadDoubleword address k ih =>
    exact (MemoryRelation.onMmu (MemoryRelation.loadDoubleword _)).bind fun r => ih _

theorem Instruction.trace_carries {R : MemoryRelation} (inlines : Inlines) (i : Instruction) :
    R.CarriesCpu (i.trace inlines) := by
  refine .ite ((Carries.lift _).bind fun seq => BasicInstruction.traceAllRaw_carries seq) ?_
  unfold traceRaw
  split
  · exact BasicInstruction.traceRaw_carries _
  · rename_i op _
    have hrest {k : List Cycle → CpuM (List Cycle)} (hk : ∀ cycles, R.CarriesCpu (k cycles)) : R.CarriesCpu (do
        let cpu ← get
        let ops ← StateT.lift (op.inlineSequence firstVirtualRegister >>= op.fillAdvice cpu)
        let cycles ← BasicInstruction.traceAll (BasicInstruction.finalize i.address i.isCompressed ops)
        k cycles) :=
      MemoryRelation.getCpu (fun _ _ => rfl) fun _ => (Carries.lift _).bind fun _ =>
        (BasicInstruction.traceAll_carries _).bind hk
    cases op with
    | lr width o => exact (MemoryRelation.modifyCpu fun _ _ => rfl).bind fun _ => hrest fun cycles => .pure _
    | sc width o => exact hrest fun cycles => (MemoryRelation.modifyCpu fun _ _ => rfl).bind fun _ => .pure _
    | _ => exact hrest fun cycles => .pure _
  · refine (Carries.lift _).bind fun reg => (reg.buildAdvice _).run_carries.bind fun advice => ?_
    cases advice with
    | none => exact (Carries.pure _).bind fun ops => BasicInstruction.traceAll_carries _
    | some values => exact (Carries.lift _).bind fun ops => BasicInstruction.traceAll_carries _

namespace Cpu

variable {R : MemoryRelation}

theorem fetchDecode_carries : R.CarriesCpu fetchDecode :=
  MemoryRelation.getCpu (fun _ _ => rfl) fun _ => (MemoryRelation.onMmu (MemoryRelation.fetchWord _)).bind fun _ =>
    (MemoryRelation.modifyCpu fun _ _ => rfl).bind fun _ => .lift _

/-- A write to a control register goes by the control registers. -/
theorem writeCsrRaw_blind (address : Nat) (value : U64) : ∃ f : (Nat → U64) → Option (Nat → U64),
    ∀ cpu : Cpu, cpu.writeCsrRaw address value = (f cpu.csr).map fun csr => { cpu with csr := csr } := by
  refine ⟨fun csr => ({ Cpu.new with csr := csr }.writeCsrRaw address value).map Cpu.csr, fun cpu => ?_⟩
  unfold writeCsrRaw
  split_ifs <;> rfl

theorem takeTrap_carries (t : TrapType) (value instructionAddress : U64) (newMode : PrivilegeMode) :
    R.CarriesCpu (takeTrap t value instructionAddress newMode) := by
  choose f hf using writeCsrRaw_blind
  refine MemoryRelation.blind fun cpu mmu => ?_
  cases newMode <;>
    simp only [takeTrap, hf, Option.bind_eq_bind, Option.bind_some, Option.bind_map, Option.map_bind,
      Function.comp_def, Option.bind_fun_none, Option.map_none] <;>
    rfl

theorem handleTrap_carries (t : TrapType) (value instructionAddress : U64) (isInterrupt : Bool) :
    R.CarriesCpu (handleTrap t value instructionAddress isInterrupt) := by
  refine MemoryRelation.getCpu (fun _ _ => rfl) fun cpu => ?_
  have htaken (enabled : Bool) : R.CarriesCpu (if enabled then do
      takeTrap t value instructionAddress (cpu.newPrivilegeMode t.cause isInterrupt)
      pure true
      else pure false) :=
    .ite ((takeTrap_carries ..).bind fun _ => .pure _) (.pure _)
  cases isInterrupt with
  | true => exact (Carries.lift _).bind htaken
  | false => exact (Carries.pure true).bind htaken

theorem handleInterrupt_carries (instructionAddress : U64) : R.CarriesCpu (handleInterrupt instructionAddress) := by
  refine MemoryRelation.getCpu (fun _ _ => rfl) fun cpu => ?_
  induction interruptOrder with
  | nil => exact .pure _
  | cons interrupt rest ih =>
    refine .ite (MemoryRelation.getCpu (fun _ _ => rfl) fun now => (handleTrap_carries ..).bind fun taken => ?_) ih
    exact .ite (MemoryRelation.modifyCpu fun _ _ => rfl) ih

theorem advanceClock_carries : R.CarriesCpu advanceClock := by
  choose f hf using writeCsrRaw_blind
  refine (MemoryRelation.modifyCpu fun _ _ => rfl).bind fun _ => MemoryRelation.blind fun cpu mmu => ?_
  simp only [bind_apply, get_apply, lift_apply, Option.bind_eq_bind, Option.bind_some, hf]
  cases f csrCycleAddress (cpu.clock * 8) cpu.csr <;> rfl

theorem wake_carries : R.CarriesCpu wake :=
  MemoryRelation.getCpu (fun _ _ => rfl) fun _ => (Carries.lift _).bind fun _ =>
    MemoryRelation.getCpu (fun _ _ => rfl) fun _ => (Carries.lift _).bind fun _ =>
      .ite (MemoryRelation.modifyCpu fun _ _ => rfl) (.pure _)

theorem tickOperate_carries (inlines : Inlines) : R.CarriesCpu (tickOperate inlines true) :=
  MemoryRelation.getCpu (fun _ _ => rfl) fun _ => .ite (wake_carries.bind fun _ => .pure _)
    (fetchDecode_carries.bind fun i => i.trace_carries inlines)

/-- **A traced tick carries over.** -/
theorem tick_carries (inlines : Inlines) : R.CarriesCpu (tick inlines true) :=
  (tickOperate_carries inlines).bind fun _ => MemoryRelation.getCpu (fun _ _ => rfl) fun cpu =>
    (handleInterrupt_carries cpu.pc).bind fun _ => advanceClock_carries.bind fun _ => .pure _

end Cpu

end LightningJolt
