/-
The values in a trace. The increments of the cycles before one add up to what
it finds in a register or a doubleword, and what it finds in a doubleword is
what was last left there.
-/
import LightningJolt.RlcMatrix
import LightningJolt.TraceConsistency
import LightningJolt.Tracer

namespace LightningJolt

open CellAccess TracePosition

/-! ## The log of a run -/

variable {inlines : Inlines}

/-- What has happened up to a position: the cycles handed out and those that are still to be. -/
def TracePosition.RecordedSince (cpu : Cpu) (cs : List Cycle) (p : TracePosition) : Prop :=
  Records cpu (cs ++ p.currentTraces.reverse) p.emulatorState

namespace TracePosition

variable {cpu : Cpu} {p p' : TracePosition} {cs cs' : List Cycle} {o : Option Cycle}

theorem RecordedSince.step (h : p.RecordedSince cpu cs) (hstep : p.lazyStep inlines = .some (o, p')) :
    p'.RecordedSince cpu (cs ++ o.toList) := by
  unfold RecordedSince at h ⊢
  unfold lazyStep at hstep
  cases hlast : p.currentTraces.getLast? with
  | some c =>
    rw [hlast] at hstep
    cases hstep
    rwa [← List.dropLast_append_getLast? c hlast, List.reverse_append, ← List.append_assoc] at h
  | none =>
    rw [List.getLast?_eq_none_iff.mp hlast, List.reverse_nil, List.append_nil] at h
    simp only [hlast, stepEmulator] at hstep
    split_ifs at hstep
    · cases hstep
      simpa using h
    · obtain ⟨⟨cycles, cpu1, prevPc⟩, hemulate, hpure⟩ := Option.bind_eq_some_iff.mp hstep
      obtain ⟨⟨cycles', cpu'⟩, htick, hpure'⟩ := Option.bind_eq_some_iff.mp hemulate
      cases hpure'
      cases hpure
      have hall := h.append (Cpu.tick_recorded htick)
      cases cycles' with
      | nil => simpa using hall
      | cons c cycles => simpa using hall

theorem RecordedSince.yields (h : p.RecordedSince cpu cs) (hs : Yields inlines p cs' p') :
    p'.RecordedSince cpu (cs ++ cs') := by
  induction hs generalizing cs with
  | nil p => rwa [List.append_nil]
  | cons hstep hs ih =>
    rw [List.append_cons]
    exact ih (h.step hstep)

theorem currentTraces_of_end (hstep : p.lazyStep inlines = .some (.none, p')) : p'.currentTraces = [] := by
  unfold lazyStep at hstep
  cases hlast : p.currentTraces.getLast? with
  | some c =>
    rw [hlast] at hstep
    cases hstep
  | none =>
    rw [hlast] at hstep
    obtain ⟨⟨cycles, cpu1, prevPc⟩, -, hpure⟩ := Option.bind_eq_some_iff.mp hstep
    obtain ⟨htraces, rfl⟩ := Prod.mk.inj (Option.some.inj hpure)
    rw [List.getLast?_eq_none_iff.mp htraces, List.dropLast_nil]

end TracePosition

/-- **A trace collected records the run.** -/
theorem CheckpointingTracer.collect_recorded {cpu : Cpu} {fuel : Nat} {cs : List Cycle} {t : CheckpointingTracer}
    (h : collect (next inlines) fuel (.new cpu) = .some (cs, t)) : ∃ final : Cpu,
      Records cpu cs final ∧ t.finalMemoryState = .some final.mmu.memory.takeMemory.1 ∧
      t.position.emulatorState.mmu.joltDevice = final.mmu.joltDevice := by
  obtain ⟨last, final, hyields, hend, hmemory, hdevice, -⟩ := yields_of_collect rfl h
  have hstart : (CheckpointingTracer.new cpu).position.RecordedSince cpu [] := .silent rfl (Setoid.refl _)
  have hfinal := (hstart.yields hyields).step hend
  rw [RecordedSince, currentTraces_of_end hend] at hfinal
  exact ⟨final.emulatorState, by simpa using hfinal, hmemory, hdevice⟩

/-! ## Increments -/

/-- The change of a cycle to the register it writes, which `RdInc` commits to. -/
def Cycle.rdInc (c : Cycle) : Int :=
  let (pre, post) := c.rd.getD (0, 0)
  post.toNat - pre.toNat

/-- The change of a cycle to the doubleword it writes, which `RamInc` commits to. -/
def Cycle.ramInc (c : Cycle) : Int :=
  match c.ramAccess with
  | .write w => w.postValue.toNat - w.preValue.toNat
  | _ => 0

theorem Cycle.witness_inc {bytecode : BytecodePreprocessing} {layout : MemoryLayout} {c : Cycle} {w : CycleWitness}
    (h : c.witness bytecode layout = .some w) : w.rdInc = c.rdInc ∧ w.ramInc = c.ramInc := by
  obtain ⟨lookupIndex, -, h⟩ := Option.bind_eq_some_iff.mp h
  obtain ⟨pc, -, h⟩ := Option.bind_eq_some_iff.mp h
  obtain ⟨address, -, h⟩ := Option.bind_eq_some_iff.mp h
  cases h
  exact ⟨rfl, rfl⟩

/-- What the increments of some cycles make of a register. -/
def registerVal (cycles : List Cycle) (r : Nat) : Int :=
  (cycles.map fun c => if c.instruction.op.rd = .some r then c.rdInc else 0).sum

/-- What they make of a doubleword. -/
def ramVal (cycles : List Cycle) (address : Nat) : Int :=
  (cycles.map fun c => if c.ramAccess.address = address then c.ramInc else 0).sum

/-- The doubleword an access is to and what it finds there. -/
def RamAccess.found : RamAccess → Option (Nat × U64)
  | .read r => .some (r.address, r.value)
  | .write w => .some (w.address, w.preValue)
  | .noOp => .none

section Logs

variable {s : Nat → U64} {cycles : List Cycle} {k : Nat}

/-- A cell after a log that goes cycle by cycle. -/
theorem replay_cycles {log : Cycle → List (CellAccess Nat U64)} {inc : Cycle → Int}
    (h : Consistent s (cycles.flatMap log)) (hinc : ∀ c ∈ cycles,
      ((log c).map fun a => if a.cell = k then (a.left.toNat : Int) - a.found.toNat else 0).sum = inc c) :
    ((replay s (cycles.flatMap log) k).toNat : Int) = (s k).toNat + (cycles.map inc).sum := by
  rw [h.replay_eq_sum (fun v : U64 => (v.toNat : Int)) k, List.map_flatMap, List.flatMap_def, List.sum_flatten,
    List.map_map]
  exact congrArg (fun l => ((s k).toNat : Int) + l.sum) (List.map_congr_left hinc)

theorem Cycle.sourceLog_read (c : Cycle) : ∀ a ∈ c.sourceLog, a.left = a.found := by
  have hread : ∀ (o : Option Nat) (v : Option U64), ∀ a ∈ (o.bind fun r => v.map (CellAccess.read r)).toList,
      a.left = a.found := by
    intro o v a ha
    obtain ⟨r, -, hv⟩ := Option.bind_eq_some_iff.mp (Option.mem_toList.mp ha)
    obtain ⟨value, -, rfl⟩ := Option.map_eq_some_iff.mp hv
    rfl
  intro a ha
  exact (List.mem_append.mp ha).elim (hread _ _ a) (hread _ _ a)

theorem Cycle.registerLog_inc (c : Cycle) (r : Nat) :
    (c.registerLog.map fun a => if a.cell = r then (a.left.toNat : Int) - a.found.toNat else 0).sum =
      if c.instruction.op.rd = .some r then c.rdInc else 0 := by
  have hsource : (c.sourceLog.map fun a => if a.cell = r then (a.left.toNat : Int) - a.found.toNat else 0).sum = 0 := by
    refine List.sum_eq_zero fun x hx => ?_
    obtain ⟨a, ha, rfl⟩ := List.mem_map.mp hx
    rw [c.sourceLog_read a ha, sub_self, ite_self]
  rw [Cycle.registerLog, List.map_append, List.sum_append, hsource, zero_add, Cycle.rdLog, Cycle.rdInc]
  cases c.instruction.op.rd with
  | none => simp
  | some r' => cases c.rd <;> simp

/-- What a cycle finds in the registers, they held before it. -/
theorem Cycle.registerLog_found {c : Cycle} (h : Consistent s c.registerLog) :
    ∀ a ∈ c.registerLog, a.found = s a.cell := by
  obtain ⟨hsource, hrd⟩ := consistent_append.mp h
  obtain ⟨hfound, hsame⟩ := hsource.of_reads c.sourceLog_read
  rw [hsame] at hrd
  intro a ha
  rcases List.mem_append.mp ha with ha | ha
  · exact hfound a ha
  · obtain ⟨r, hr, hv⟩ := Option.bind_eq_some_iff.mp (Option.mem_toList.mp ha)
    obtain ⟨values, hvalues, rfl⟩ := Option.map_eq_some_iff.mp hv
    rw [Cycle.rdLog, hr, Option.bind_some, hvalues] at hrd
    exact hrd.1

/-- What a cycle finds in memory. -/
theorem Cycle.mem_ramLog (layout : Option MemoryLayout) {c : Cycle} {a : Nat} {v : U64}
    (h : c.ramAccess.found = .some (a, v)) :
    ∃ access, c.ramLog layout = [access] ∧ access.cell = a / 8 ∧ access.found = v := by
  unfold Cycle.ramLog
  cases hacc : c.ramAccess with
  | noOp =>
    rw [hacc] at h
    cases h
  | read r | write w =>
    rw [hacc] at h
    cases h
    exact ⟨_, rfl, rfl, rfl⟩

theorem RamAccess.aligned_of_found {access : RamAccess} {a : Nat} {v : U64} (h : access.dwordAligned)
    (hfound : access.found = .some (a, v)) : a % 8 = 0 := by
  cases access <;> cases hfound
  all_goals exact h

end Logs

namespace Records

variable {cpu final : Cpu} {pre post : List Cycle} {c : Cycle}

/-- What a cycle finds in the registers is what the cycles before it made of them. -/
theorem register_found (h : Records cpu (pre ++ c :: post) final) (hx : cpu.x = .initial) :
    ∀ a ∈ c.registerLog, (a.found.toNat : Int) = registerVal pre a.cell := by
  intro a ha
  have hlog := h.registers
  rw [List.flatMap_append, List.flatMap_cons, consistent_append, consistent_append] at hlog
  obtain ⟨hpre, hc, -⟩ := hlog
  have hval := replay_cycles (k := a.cell) hpre fun c _ => c.registerLog_inc a.cell
  rw [hx] at hval hc
  rw [Cycle.registerLog_found hc a ha, hval, registerVal]
  exact zero_add _

/-- What a cycle finds in memory is there before it. -/
theorem ram_found (h : Records cpu (pre ++ c :: post) final) {a : Nat} {v : U64}
    (hfound : c.ramAccess.found = .some (a, v)) :
    a % 8 = 0 ∧ v = replay cpu.mmu.dwords (pre.flatMap (Cycle.ramLog cpu.mmu.layout)) (a / 8) := by
  have hlog := h.ram
  rw [List.flatMap_append, List.flatMap_cons, consistent_append] at hlog
  obtain ⟨access, hc, hcell, hv⟩ := Cycle.mem_ramLog cpu.mmu.layout hfound
  rw [hc] at hlog
  exact ⟨RamAccess.aligned_of_found (h.aligned c (by simp)) hfound, by rw [← hv, hlog.2.1, hcell]⟩

end Records

/-! ## Doublewords -/

/-- What a cycle writes to a doubleword. -/
def Cycle.writes (address : Nat) (c : Cycle) : Option U64 :=
  match c.ramAccess with
  | .write w => if w.address = address then .some w.postValue else .none
  | _ => .none

/-- What was last written to a doubleword. -/
def lastWrite (cycles : List Cycle) (address : Nat) : Option U64 := (cycles.filterMap (Cycle.writes address)).getLast?

/-- What a doubleword holds after some cycles, by what was last written to it. -/
def Mmu.after (m : Mmu) (cycles : List Cycle) (address : Nat) : U64 :=
  match lastWrite cycles address with
  | .none => m.dword address
  | .some v => settled m.layout address (m.dword address) v

section Doublewords

variable {m : Mmu} {cycles : List Cycle} {a : Nat}

theorem Mmu.dwords_div (h8 : a % 8 = 0) : m.dwords (a / 8) = m.dword a := by
  rw [dwords, show 8 * (a / 8) = a by omega]

/-- The termination doubleword keeps what it held at first, and no other depends on that. -/
theorem Mmu.settled_after (cycles : List Cycle) (v : U64) :
    settled m.layout a (m.after cycles a) v = settled m.layout a (m.dword a) v := by
  unfold after settled
  cases m.layout with
  | none => rfl
  | some l =>
    cases lastWrite cycles a with
    | none => rfl
    | some v =>
      dsimp only
      split_ifs <;> rfl

theorem Mmu.after_append (c : Cycle) : m.after (cycles ++ [c]) a =
    match c.writes a with
    | .none => m.after cycles a
    | .some v => settled m.layout a (m.dword a) v := by
  unfold after lastWrite
  rw [List.filterMap_append, List.filterMap_cons, List.filterMap_nil]
  cases c.writes a with
  | none => rw [List.append_nil]
  | some v => rw [List.getLast?_concat]

theorem replay_ramLog (h : Consistent m.dwords (cycles.flatMap (Cycle.ramLog m.layout)))
    (haligned : ∀ c ∈ cycles, c.ramAccess.dwordAligned) (h8 : a % 8 = 0) :
    replay m.dwords (cycles.flatMap (Cycle.ramLog m.layout)) (a / 8) = m.after cycles a := by
  induction cycles using List.reverseRecOn with
  | nil => exact Mmu.dwords_div h8
  | append_singleton cycles c ih =>
    rw [List.flatMap_append, List.flatMap_singleton, consistent_append] at h
    rw [List.flatMap_append, List.flatMap_singleton, Mmu.after_append, Cycle.writes]
    have hprefix := ih h.1 fun c hc => haligned c (List.mem_append_left _ hc)
    have hc := haligned c (by simp)
    have hlog := h.2
    unfold Cycle.ramLog at hlog ⊢
    cases hacc : c.ramAccess with
    | noOp => exact List.append_nil _ ▸ hprefix
    | read r =>
      rw [hacc] at hlog
      rw [replay_concat]
      split_ifs with ha
      · rw [← hprefix, ha]
        exact hlog.1
      · exact hprefix
    | write w =>
      rw [hacc] at hlog hc
      have h8' : w.address % 8 = 0 := hc
      dsimp only
      rw [replay_concat]
      by_cases ha : w.address = a
      · rw [if_pos (by rw [ha]), if_pos ha]
        dsimp only
        rw [← Mmu.settled_after cycles, ← hprefix, ← ha]
        exact congrArg (fun held => Mmu.settled m.layout w.address held w.postValue) hlog.1
      · rw [if_neg (by simp only; omega), if_neg ha]
        exact hprefix

theorem Cycle.ramLog_inc {c : Cycle} (h8 : a % 8 = 0) (hplain : m.Plain a) (haligned : c.ramAccess.dwordAligned) :
    ((c.ramLog m.layout).map fun x => if x.cell = a / 8 then (x.left.toNat : Int) - x.found.toNat else 0).sum =
      if c.ramAccess.address = a then c.ramInc else 0 := by
  unfold Cycle.ramLog Cycle.ramInc
  cases hacc : c.ramAccess with
  | noOp => simp
  | read r => simp [CellAccess.read]
  | write w =>
    rw [hacc] at haligned
    have hcell : w.address / 8 = a / 8 ↔ w.address = a := by
      have : w.address % 8 = 0 := haligned
      omega
    by_cases ha : w.address = a
    · subst ha
      simp [RamAccess.address, Mmu.settled_plain hplain]
    · have hne := mt hcell.mp ha
      simp [RamAccess.address, hne, ha]

end Doublewords

/-! ## The values of a trace -/

variable {cpu : Cpu} {fuel : Nat} {cs : List Cycle} {t : CheckpointingTracer}

/-- What a cycle finds is what the increments of the cycles before it add up to:
in the registers from zero, in a doubleword from what it held at first, unless
its address is that of the panic flag or of the termination flag. -/
structure Cycle.FindsVal (m : Mmu) (before : List Cycle) (c : Cycle) : Prop where
  rs1 : ∀ r, c.instruction.op.normalize.rs1 = .some r → ∃ v, c.rs1 = .some v ∧ (v.toNat : Int) = registerVal before r
  rs2 : ∀ r, c.instruction.op.normalize.rs2 = .some r → ∃ v, c.rs2 = .some v ∧ (v.toNat : Int) = registerVal before r
  rd : ∀ r, c.instruction.op.normalize.rd = .some r →
    ∃ v w, c.rd = .some (v, w) ∧ (v.toNat : Int) = registerVal before r
  ram : ∀ a v, c.ramAccess.found = .some (a, v) → m.Plain a → (v.toNat : Int) = (m.dword a).toNat + ramVal before a

/-- **The increments before a cycle add up to what it finds**, and its own are those of its
witness. -/
theorem trace_val (h : collect (CheckpointingTracer.next inlines) fuel (.new cpu) = .some (cs, t))
    (hx : cpu.x = .initial) {pre post : List Cycle} {c : Cycle} (hcs : cs = pre ++ c :: post) :
    c.FindsVal cpu.mmu pre ∧ ∀ bytecode layout w, c.witness bytecode layout = .some w →
      w.rdInc = c.rdInc ∧ w.ramInc = c.ramInc := by
  obtain ⟨final, hrecords, -⟩ := CheckpointingTracer.collect_recorded h
  rw [hcs] at hrecords
  have hfound := hrecords.register_found hx
  obtain ⟨hrs1, hrs2, hrd⟩ := hrecords.named c (by simp)
  refine ⟨{ rs1 := fun r hr => ?_, rs2 := fun r hr => ?_, rd := fun r hr => ?_, ram := fun a v hv hplain => ?_ },
    fun _ _ _ hw => Cycle.witness_inc hw⟩
  · rw [hr] at hrs1
    obtain ⟨v, hv⟩ := Option.isSome_iff_exists.mp hrs1
    exact ⟨v, hv, hfound (.read r v) (by simp [Cycle.registerLog, Cycle.sourceLog, hr, hv])⟩
  · rw [hr] at hrs2
    obtain ⟨v, hv⟩ := Option.isSome_iff_exists.mp hrs2
    exact ⟨v, hv, hfound (.read r v) (by simp [Cycle.registerLog, Cycle.sourceLog, hr, hv])⟩
  · rw [hr] at hrd
    obtain ⟨⟨v, w⟩, hvw⟩ := Option.isSome_iff_exists.mp hrd
    exact ⟨v, w, hvw, hfound ⟨r, v, w⟩ (by simp [Cycle.registerLog, Cycle.rdLog, BasicOp.rd, hr, hvw])⟩
  · obtain ⟨h8, hreplay⟩ := hrecords.ram_found hv
    have hlog := hrecords.ram
    rw [List.flatMap_append, consistent_append] at hlog
    have hval := replay_cycles (k := a / 8) hlog.1 fun c hc =>
      Cycle.ramLog_inc h8 hplain (hrecords.aligned c (List.mem_append_left _ hc))
    rwa [← hreplay, Mmu.dwords_div h8] at hval

/-- The load of the program that stores. -/
theorem trace_val_storing : ∃ cs t c,
    collect (CheckpointingTracer.next fun _ _ _ => .none) 6 (.new storingCpu) = .some (cs, t) ∧ cs[3]? = .some c ∧
      c.FindsVal storingCpu.mmu (cs.take 3) := by
  obtain ⟨cs, t, hcs, hlength⟩ := storingCpu_trace
  have hlt : 3 < cs.length := by omega
  refine ⟨cs, t, cs[3], hcs, List.getElem?_eq_getElem hlt, ?_⟩
  exact (trace_val hcs rfl (by rw [List.getElem_cons_drop, List.take_append_drop])).1

/-- **Memory is consistent in a trace**: a cycle finds in a doubleword what was
last written to it, or what it held at first. After the last cycle that is what
the tracer and the device hold. -/
theorem trace_memory_consistent (h : collect (CheckpointingTracer.next inlines) fuel (.new cpu) = .some (cs, t)) :
    (∀ pre c post a v, cs = pre ++ c :: post → c.ramAccess.found = .some (a, v) →
      a % 8 = 0 ∧ v = cpu.mmu.after pre a) ∧
    ∃ memory, t.finalMemoryState = .some memory ∧ ∀ a, a % 8 = 0 →
      ({ memory, joltDevice := t.position.emulatorState.mmu.joltDevice } : Mmu).dword a = cpu.mmu.after cs a := by
  obtain ⟨final, hrecords, hmemory, hdevice⟩ := CheckpointingTracer.collect_recorded h
  refine ⟨?_, final.mmu.memory.takeMemory.1, hmemory, fun a h8 => ?_⟩
  · intro pre c post a v hcs hv
    rw [hcs] at hrecords
    obtain ⟨h8, hreplay⟩ := hrecords.ram_found hv
    have hlog := hrecords.ram
    rw [List.flatMap_append, consistent_append] at hlog
    refine ⟨h8, hreplay.trans ?_⟩
    exact replay_ramLog hlog.1 (fun c hc => hrecords.aligned c (List.mem_append_left _ hc)) h8
  · have hsame : ({ memory := final.mmu.memory.takeMemory.1, joltDevice := final.mmu.joltDevice } : Mmu).dword a =
      final.mmu.dword a := rfl
    rw [hdevice, hsame, ← Mmu.dwords_div h8, ← hrecords.ramAfter]
    exact replay_ramLog hrecords.ram hrecords.aligned h8

/-- The program that stores. -/
theorem trace_memory_consistent_storing : ∃ cs t memory,
    collect (CheckpointingTracer.next fun _ _ _ => .none) 6 (.new storingCpu) = .some (cs, t) ∧ cs.length = 5 ∧
      t.finalMemoryState = .some memory ∧
      ({ memory, joltDevice := t.position.emulatorState.mmu.joltDevice } : Mmu).dword 0x80000020 =
        storingCpu.mmu.after cs 0x80000020 := by
  obtain ⟨cs, t, hcs, hlength⟩ := storingCpu_trace
  obtain ⟨-, memory, hmemory, hfinal⟩ := trace_memory_consistent hcs
  exact ⟨cs, t, memory, hcs, hlength, hmemory, hfinal _ (by decide)⟩

end LightningJolt
