/-
Checkpoints replayed. What a checkpoint holds of memory is the value each
doubleword had when it was first accessed in the stretch; the cycles the tracer
handed out in the stretch are handed out again from it.
-/
import LightningJolt.MemoryCarries
import LightningJolt.Tracer

namespace LightningJolt

open Fallible

/-! ## Recording and replaying -/

/-- What memory has recorded of the doubleword at `index`. -/
def MemoryData.recorded (m : MemoryData) (index : Nat) : Option U64 := m.checkpoint.bind (· index)

namespace MemoryData

theorem recorded_record {m : MemoryData} (h : m.checkpoint.isSome) (index i : Nat) :
    (m.record index).recorded i =
      if i = index then (m.recorded index).or (.some (m.memory index)) else m.recorded i := by
  obtain ⟨c, hc⟩ := Option.isSome_iff_exists.mp h
  simp only [recorded, record, hc, Option.map_some, Option.bind_some]

theorem isSome_record (m : MemoryData) (index : Nat) :
    (m.record index).checkpoint.isSome = m.checkpoint.isSome :=
  Option.isSome_map

/-- The memory of a checkpoint saved now. -/
def firstValues (m : MemoryData) : MemoryData where
  memory i := (m.recorded i).getD 0
  numDoublewords := m.numDoublewords
  checkpoint := .none

theorem saveCheckpoint_eq {m : MemoryData} (h : m.checkpoint.isSome) :
    m.saveCheckpoint = .some (m.firstValues, { m with checkpoint := .some fun _ => .none }) := by
  obtain ⟨c, hc⟩ := Option.isSome_iff_exists.mp h
  simp only [saveCheckpoint, firstValues, recorded, hc, Option.bind_eq_bind, Option.bind_some]
  rfl

/-- A value once recorded stays. -/
theorem recorded_of_record {m : MemoryData} (h : m.checkpoint.isSome) {index i : Nat} {v : U64}
    (hv : m.recorded i = .some v) : (m.record index).recorded i = .some v := by
  rw [recorded_record h]
  split_ifs with hi
  · rw [← hi, hv, Option.some_or]
  · exact hv

end MemoryData

/-- The recording changes nothing else. -/
def recording : MemoryRelation where
  Within _ := True
  Sim m r := r.memory = m.memory ∧ r.numDoublewords = m.numDoublewords ∧ r.checkpoint.isSome
  access index := {
    within := fun _ _ => trivial
    run := by
      intro m a m' r h _ hsim
      obtain ⟨hmemory, hsize, hsome⟩ := hsim
      unfold MemoryData.accessU64 at h ⊢
      split_ifs at h with hi
      cases h
      rw [hsize, if_pos hi, hmemory]
      exact ⟨_, rfl, hmemory, hsize, by rwa [MemoryData.isSome_record]⟩ }
  assign index value := {
    within := fun _ _ => trivial
    run := by
      intro m a m' r h _ hsim
      obtain ⟨hmemory, hsize, hsome⟩ := hsim
      unfold MemoryData.assignU64 at h ⊢
      split_ifs at h with hi
      cases h
      rw [hsize, if_pos hi, hmemory]
      exact ⟨_, rfl, rfl, hsize, by rwa [← MemoryData.isSome_record r index] at hsome⟩ }

/-- What lies within `last` of the recording: its size, and what it has recorded. -/
def MemoryData.Before (last m : MemoryData) : Prop :=
  m.checkpoint.isSome ∧ m.numDoublewords = last.numDoublewords ∧
    ∀ i v, m.recorded i = .some v → last.recorded i = .some v

/-- The memory `r` replays `m` in a stretch that ends in `last`: what has been
accessed so far is as in `m`, the rest as at its first access. -/
def MemoryData.Replays (last m r : MemoryData) : Prop :=
  r.numDoublewords = m.numDoublewords ∧ r.checkpoint = .none ∧
    ∀ i, r.memory i = if (m.recorded i).isSome then m.memory i else (last.recorded i).getD 0

namespace MemoryData

variable {last m r : MemoryData} {index : Nat}

theorem Before.of_record (h : last.Before (m.record index)) : last.Before m := by
  obtain ⟨hsome, hsize, hwithin⟩ := h
  rw [isSome_record] at hsome
  exact ⟨hsome, hsize, fun i v hv => hwithin i v (recorded_of_record hsome hv)⟩

/-- A doubleword accessed is there as it was recorded, now or before. -/
theorem Replays.access (h : last.Replays m r) (hlast : last.Before (m.record index)) :
    r.memory index = m.memory index := by
  have hsome := hlast.of_record.1
  rw [h.2.2]
  split_ifs with hi
  · rfl
  · have hnone : m.recorded index = .none := Option.not_isSome_iff_eq_none.mp hi
    have hrecord : (m.record index).recorded index = .some (m.memory index) := by
      rw [recorded_record hsome, if_pos rfl, hnone, Option.none_or]
    rw [hlast.2.2 index _ hrecord, Option.getD_some]

/-- After the access the replay goes on, whatever was assigned. -/
theorem Replays.update (h : last.Replays m r) (hlast : last.Before (m.record index)) (value : U64) :
    last.Replays { m.record index with memory := Function.update m.memory index value }
      { r.record index with memory := Function.update r.memory index value } := by
  obtain ⟨hsize, hnone, hmemory⟩ := h
  have hsome := hlast.of_record.1
  refine ⟨hsize, by rw [record, hnone]; rfl, fun i => ?_⟩
  change Function.update r.memory index value i = if ((m.record index).recorded i).isSome then
    Function.update m.memory index value i else _
  rw [recorded_record hsome, Function.update_apply, Function.update_apply]
  split_ifs with hi hx hx
  · rfl
  · simp at hx
  · rw [hmemory, if_pos hx]
  · rw [hmemory, if_neg hx]

end MemoryData

def replaying (last : MemoryData) : MemoryRelation where
  Within := last.Before
  Sim := last.Replays
  access index := {
    within := by
      intro m a m' h hlast
      unfold MemoryData.accessU64 at h
      split_ifs at h
      cases h
      exact hlast.of_record
    run := by
      intro m a m' r h hlast hsim
      unfold MemoryData.accessU64 at h ⊢
      split_ifs at h with hi
      cases h
      have hsame := hsim.update hlast (m.memory index)
      have haccess := hsim.access hlast
      rw [Function.update_eq_self, ← haccess, Function.update_eq_self] at hsame
      rw [hsim.1, if_pos hi, haccess]
      exact ⟨_, rfl, hsame⟩ }
  assign index value := {
    within := by
      intro m a m' h hlast
      unfold MemoryData.assignU64 at h
      split_ifs at h
      cases h
      exact MemoryData.Before.of_record hlast
    run := by
      intro m a m' r h hlast hsim
      unfold MemoryData.assignU64 at h ⊢
      split_ifs at h with hi
      cases h
      rw [hsim.1, if_pos hi]
      exact ⟨_, rfl, hsim.update hlast value⟩ }

/-! ## Steps -/

/-- The same position over related memories. -/
def MemoryRelation.SimPosition (R : MemoryRelation) (p q : TracePosition) : Prop :=
  q = { p with emulatorState := q.emulatorState } ∧ R.SimCpu p.emulatorState q.emulatorState

variable {inlines : Inlines} {R : MemoryRelation} {p p' q : TracePosition} {cs : List Cycle}

/-- Saving a checkpoint does not show. -/
theorem recording_save (h : recording.SimPosition p q) : recording.SimPosition p
    (q.setMemory { q.memory with checkpoint := .some fun _ => .none }) := by
  obtain ⟨hq, hcpu, hmmu, hmemory, hsize, -⟩ := h
  let memory : MemoryData := { q.memory with checkpoint := .some fun _ => .none }
  have hmmu' := congrArg (fun m : Mmu => { m with memory }) hmmu
  have hcpu' := congrArg (fun c : Cpu => { c with mmu := { q.emulatorState.mmu with memory } }) hcpu
  exact ⟨congrArg (fun s : TracePosition => s.setMemory memory) hq, hcpu', hmmu', hmemory, hsize, rfl⟩

namespace TracePosition

theorem lazyStep_carries : Carries (fun p => R.Within p.memory) R.SimPosition (lazyStep inlines) where
  within {p o p'} h hW := by
    unfold lazyStep at h
    cases hlast : p.currentTraces.getLast? with
    | some c =>
      rw [hlast] at h
      cases h
      exact hW
    | none =>
      simp only [hlast, stepEmulator] at h
      split_ifs at h
      · cases h
        exact hW
      · obtain ⟨⟨cycles, cpu, prevPc⟩, hstep, hpure⟩ := Option.bind_eq_some_iff.mp h
        obtain ⟨⟨cycles', cpu'⟩, htick, hpure'⟩ := Option.bind_eq_some_iff.mp hstep
        cases hpure'
        cases hpure
        exact (Cpu.tick_carries inlines).within htick hW
  run {p o p' q} h hW hsim := by
    obtain ⟨hq, hcpu⟩ := hsim
    rw [hq]
    unfold lazyStep at h ⊢
    cases hlast : p.currentTraces.getLast? with
    | some c =>
      rw [hlast] at h
      cases h
      exact ⟨_, rfl, rfl, hcpu⟩
    | none =>
      have hpc : q.emulatorState.pc = p.emulatorState.pc := by rw [hcpu.1]
      simp only [hlast, stepEmulator] at h ⊢
      rw [hpc]
      split_ifs at h ⊢ with hjump
      · cases h
        exact ⟨_, rfl, rfl, hcpu⟩
      · obtain ⟨⟨cycles, cpu, prevPc⟩, hstep, hpure⟩ := Option.bind_eq_some_iff.mp h
        obtain ⟨⟨cycles', cpu'⟩, htick, hpure'⟩ := Option.bind_eq_some_iff.mp hstep
        cases hpure'
        cases hpure
        obtain ⟨r', hrun, hsim'⟩ := (Cpu.tick_carries inlines).run htick hW hcpu
        rw [hrun]
        exact ⟨_, rfl, rfl, hsim'⟩

namespace Yields

theorem within (h : Yields inlines p cs p') (hW : R.Within p'.memory) : R.Within p.memory := by
  induction h with
  | nil p => exact hW
  | cons h hs ih => exact lazyStep_carries.within h (ih hW)

theorem run (h : Yields inlines p cs p') (hW : R.Within p'.memory) (hsim : R.SimPosition p q) :
    ∃ q', Yields inlines q cs q' ∧ R.SimPosition p' q' := by
  induction h generalizing q with
  | nil p => exact ⟨q, .nil q, hsim⟩
  | cons h hs ih =>
    obtain ⟨q1, hq, hsim1⟩ := lazyStep_carries.run h (hs.within hW) hsim
    obtain ⟨q', hqs, hsim'⟩ := ih hW hsim1
    exact ⟨q', .cons hq hqs, hsim'⟩

end Yields

end TracePosition

open TracePosition

/-! ## A trace collected -/

/-- A checkpoint hands out its cycles. -/
theorem Checkpoint.collect_of_yields (h : Yields inlines p cs p') {fuel : Nat} (hfuel : cs.length < fuel) :
    collect (next inlines) fuel { position := p, traceStepsRemaining := cs.length } =
      .some (cs, { position := p', traceStepsRemaining := 0 }) := by
  induction h generalizing fuel with
  | nil p =>
    obtain ⟨fuel, rfl⟩ : ∃ k, fuel = k + 1 := Nat.exists_eq_add_one.mpr (by omega)
    rfl
  | @cons p next _ c rest h hs ih =>
    obtain ⟨fuel, rfl⟩ : ∃ k, fuel = k + 1 := Nat.exists_eq_add_one.mpr (by omega)
    have hnext : Checkpoint.next inlines { position := p, traceStepsRemaining := (c :: rest).length } =
        .some (.some c, { position := next, traceStepsRemaining := rest.length }) := by
      simp [Checkpoint.next, lazyStepCycle, h, checkedSub]
    rw [List.length_cons] at hfuel
    rw [collect, hnext]
    simp only [Option.bind_eq_bind, Option.bind_some]
    rw [ih (Nat.lt_of_succ_lt_succ hfuel)]
    rfl

/-! ## Checkpoints -/

namespace CheckpointingTracer

/-- A tracer that has just saved a checkpoint, `rest` of the trace before it. -/
structure Fresh (t : CheckpointingTracer) : Prop where
  finished : t.finished = false
  count : t.traceStepsSinceLastCheckpoint = 0
  saved : t.savedProcessorState = .some (.newWithEmptyMemory t.position)
  recorded : t.position.memory.checkpoint = .some fun _ => .none

variable {t t' : CheckpointingTracer} {last final : TracePosition} {n : Nat}

/-- Fewer cycles than are asked for are taken, and the tracer finishes. -/
theorem dropping_short (h : Yields inlines t.position cs last) (hlive : t.finished = false)
    (hend : last.lazyStep inlines = .some (.none, final)) (hdevice : final.emulatorState.mmu.joltDevice.isSome)
    (hn : cs.length < n) : dropping (next inlines) n t = .some {
      t with
      position := final.setMemory final.memory.takeMemory.2
      traceStepsSinceLastCheckpoint := t.traceStepsSinceLastCheckpoint + cs.length
      finished := true
      finalMemoryState := .some final.memory.takeMemory.1 } := by
  obtain ⟨d, hd⟩ := Option.isSome_iff_exists.mp hdevice
  generalize hstart : t.position = start at h
  induction h generalizing t n with
  | nil last =>
    obtain ⟨n, rfl⟩ : ∃ k, n = k + 1 := Nat.exists_eq_add_one.mpr (by omega)
    simp [dropping, next, lazyStepCycle, hlive, hstart, hend, hasPanicked, setMemory, hd]
  | @cons p p1 _ c rest h hs ih =>
    obtain ⟨n, rfl⟩ : ∃ k, n = k + 1 := Nat.exists_eq_add_one.mpr (by omega)
    rw [List.length_cons] at hn
    have hnext : next inlines t = .some (.some c, {
        t with
        position := p1
        traceStepsSinceLastCheckpoint := t.traceStepsSinceLastCheckpoint + 1 }) := by
      simp [next, lazyStepCycle, hlive, hstart, h]
    rw [dropping, hnext]
    simp only [Option.bind_eq_bind, Option.bind_some]
    rw [ih (by exact hlive) hend (by omega) rfl, List.length_cons, Nat.add_right_comm, Nat.add_assoc]

/-- As many cycles as are asked for are taken. -/
theorem dropping_exact (h : Yields inlines t.position cs last) (hlive : t.finished = false) :
    dropping (next inlines) cs.length t = .some {
      t with
      position := last
      traceStepsSinceLastCheckpoint := t.traceStepsSinceLastCheckpoint + cs.length } := by
  generalize hstart : t.position = start at h
  induction h generalizing t with
  | nil last => rw [← hstart]; rfl
  | @cons p p1 _ c rest h hs ih =>
    have hnext : next inlines t = .some (.some c, {
        t with
        position := p1
        traceStepsSinceLastCheckpoint := t.traceStepsSinceLastCheckpoint + 1 }) := by
      simp [next, lazyStepCycle, hlive, hstart, h]
    rw [List.length_cons, dropping, hnext]
    simp only [Option.bind_eq_bind, Option.bind_some]
    rw [ih (by exact hlive) rfl, Nat.add_right_comm, Nat.add_assoc]

theorem saveCheckpoint_fresh (hsaved : t.savedProcessorState = .some (.newWithEmptyMemory p))
    (hsome : t.position.memory.checkpoint.isSome) : ∃ t',
      t.saveCheckpoint = .some ({
        position := p.setMemory t.position.memory.firstValues
        traceStepsRemaining := t.traceStepsSinceLastCheckpoint }, t') ∧
      t'.finished = t.finished ∧
      t'.position = t.position.setMemory { t.position.memory with checkpoint := .some fun _ => .none } ∧
      (t.finished = false → t'.Fresh) := by
  simp only [saveCheckpoint, hsaved, MemoryData.saveCheckpoint_eq hsome, Option.bind_eq_bind, Option.bind_some]
  exact ⟨_, rfl, rfl, rfl, fun hlive => ⟨hlive, rfl, rfl, rfl⟩⟩

/-- A stretch of the trace is handed out again from what memory recorded in it. -/
theorem replays (h : Yields inlines p cs p') (hfresh : p.memory.checkpoint = .some fun _ => .none)
    {data : MemoryData} (hwithin : data.Before p'.memory) {fuel : Nat} (hfuel : cs.length < fuel) :
    ∃ final, collect (Checkpoint.next inlines) fuel {
        position := p.setMemory data.firstValues
        traceStepsRemaining := cs.length } = .some (cs, final) := by
  have hsim : (replaying data).SimPosition p (p.setMemory data.firstValues) := by
    refine ⟨rfl, rfl, rfl, (h.within (R := replaying data) hwithin).2.1.symm, rfl, fun i => ?_⟩
    have hnone : p.emulatorState.mmu.memory.recorded i = .none := by
      change p.memory.checkpoint.bind _ = _
      rw [hfresh]
      rfl
    rw [hnone, if_neg (by simp)]
    rfl
  obtain ⟨q', hq, -⟩ := h.run (R := replaying data) hwithin hsim
  exact ⟨_, Checkpoint.collect_of_yields hq hfuel⟩

/-- The last turn, which finds the trace finished. -/
theorem checkpointLoop_last {fuel : Nat} (hfresh : t.Fresh) (hsim : recording.SimPosition p t.position)
    (h : Yields inlines p cs last) (hend : last.lazyStep inlines = .some (.none, final))
    (hdevice : final.emulatorState.mmu.joltDevice.isSome) (hn : cs.length < n) : ∃ checkpoint t' replayed,
      checkpointLoop inlines n (fuel + 1) t = .some ([checkpoint], t') ∧
      t'.position.emulatorState.mmu.joltDevice = final.emulatorState.mmu.joltDevice ∧
      collect (Checkpoint.next inlines) (n + 1) checkpoint = .some (cs, replayed) := by
  obtain ⟨q, hq, hsimq⟩ := h.run trivial hsim
  obtain ⟨qf, hqf, hsimf⟩ := lazyStep_carries.run hend trivial hsimq
  have hdev : qf.emulatorState.mmu.joltDevice = final.emulatorState.mmu.joltDevice := hsimf.2.2.joltDevice
  have hsome : qf.memory.checkpoint.isSome := hsimf.2.2.2.2.2
  obtain ⟨t1, hdrop, hfin, hsaved, hcount, hpos⟩ : ∃ t1, dropping (next inlines) n t = .some t1 ∧ t1.finished = true ∧
      t1.savedProcessorState = t.savedProcessorState ∧
      t1.traceStepsSinceLastCheckpoint = t.traceStepsSinceLastCheckpoint + cs.length ∧
      t1.position = qf.setMemory qf.memory.takeMemory.2 :=
    ⟨_, dropping_short hq hfresh.finished hqf (by rw [hdev]; exact hdevice) hn, rfl, rfl, rfl, rfl⟩
  obtain ⟨t2, hsave, hfin2, hpos2, -⟩ := saveCheckpoint_fresh (hsaved.trans hfresh.saved) (by rw [hpos]; exact hsome)
  rw [hcount, hfresh.count, Nat.zero_add, hpos] at hsave
  -- The step that ends the trace may have touched memory, too.
  have hwithin : qf.memory.Before q.memory :=
    (lazyStep_carries (R := replaying qf.memory)).within hqf ⟨hsome, rfl, fun _ _ hv => hv⟩
  obtain ⟨replayed, hreplay⟩ := replays hq hfresh.recorded hwithin (hn.trans (Nat.lt_succ_self n))
  refine ⟨_, t2, replayed, ?_, ?_, hreplay⟩
  · rw [checkpointLoop, hdrop]
    simp only [Option.bind_eq_bind, Option.bind_some]
    rw [hsave]
    simp only [Option.bind_some]
    rw [hfin2, hfin, if_pos rfl]
    rfl
  · rw [hpos2, hpos]
    exact hdev

/-- Any other turn. -/
theorem checkpointLoop_turn (fuel : Nat) (hfresh : t.Fresh) (hsim : recording.SimPosition p t.position)
    (h : Yields inlines p cs p') : ∃ checkpoint t' replayed,
      checkpointLoop inlines cs.length (fuel + 1) t = (checkpointLoop inlines cs.length fuel t').map (fun r =>
        (checkpoint :: r.1, r.2)) ∧
      t'.Fresh ∧ recording.SimPosition p' t'.position ∧
      collect (Checkpoint.next inlines) (cs.length + 1) checkpoint = .some (cs, replayed) := by
  obtain ⟨q, hq, hsimq⟩ := h.run trivial hsim
  have hsome : q.memory.checkpoint.isSome := hsimq.2.2.2.2.2
  obtain ⟨t1, hdrop, hfin, hsaved, hcount, hpos⟩ : ∃ t1, dropping (next inlines) cs.length t = .some t1 ∧
      t1.finished = t.finished ∧ t1.savedProcessorState = t.savedProcessorState ∧
      t1.traceStepsSinceLastCheckpoint = t.traceStepsSinceLastCheckpoint + cs.length ∧ t1.position = q :=
    ⟨_, dropping_exact hq hfresh.finished, rfl, rfl, rfl, rfl⟩
  obtain ⟨t2, hsave, hfin2, hpos2, hfresh2⟩ :=
    saveCheckpoint_fresh (hsaved.trans hfresh.saved) (by rw [hpos]; exact hsome)
  rw [hcount, hfresh.count, Nat.zero_add, hpos] at hsave
  have hwithin : q.memory.Before q.memory := ⟨hsome, rfl, fun _ _ hv => hv⟩
  obtain ⟨replayed, hreplay⟩ := replays hq hfresh.recorded hwithin (Nat.lt_succ_self _)
  refine ⟨_, t2, replayed, ?_, hfresh2 (hfin.trans hfresh.finished), ?_, hreplay⟩
  · rw [checkpointLoop, hdrop]
    simp only [Option.bind_eq_bind, Option.bind_some]
    rw [hsave]
    simp only [Option.bind_some]
    rw [hfin2, hfin, hfresh.finished, if_neg Bool.false_ne_true]
    cases checkpointLoop inlines cs.length fuel t2 <;> rfl
  · rw [hpos2, hpos]
    exact recording_save hsimq

/-- **Every checkpoint hands out its stretch of the trace**, which an emulator
that records nothing goes through from `p`. -/
theorem checkpointLoop_replays (hn : 0 < n) {fuel : Nat} (hfuel : cs.length / n < fuel) (hfresh : t.Fresh)
    (hsim : recording.SimPosition p t.position) (h : Yields inlines p cs last)
    (hend : last.lazyStep inlines = .some (.none, final)) (hdevice : final.emulatorState.mmu.joltDevice.isSome) :
    ∃ checkpoints t', checkpointLoop inlines n fuel t = .some (checkpoints, t') ∧
      t'.position.emulatorState.mmu.joltDevice = final.emulatorState.mmu.joltDevice ∧
      checkpoints.length = cs.length / n + 1 ∧
      ∀ i checkpoint, checkpoints[i]? = .some checkpoint → ∃ replayed,
        collect (Checkpoint.next inlines) (n + 1) checkpoint = .some ((cs.drop (i * n)).take n, replayed) := by
  induction fuel generalizing cs t p with
  | zero => exact absurd hfuel (Nat.not_lt_zero _)
  | succ fuel ih =>
    by_cases hshort : cs.length < n
    · obtain ⟨checkpoint, t', replayed, hloop, hdev, hreplay⟩ := checkpointLoop_last hfresh hsim h hend hdevice hshort
      refine ⟨_, t', hloop, hdev, by rw [Nat.div_eq_of_lt hshort]; rfl, fun i c hi => ⟨replayed, ?_⟩⟩
      cases i with
      | zero =>
        cases hi
        rw [hreplay, Nat.zero_mul, List.drop_zero, List.take_of_length_le (Nat.le_of_lt hshort)]
      | succ i => cases hi
    · obtain ⟨p1, hfirst, hrest⟩ := h.split n
      have hlen : (cs.take n).length = n := List.length_take_of_le (Nat.le_of_not_lt hshort)
      obtain ⟨checkpoint, t1, replayed, hloop, hfresh1, hsim1, hreplay⟩ :=
        checkpointLoop_turn fuel hfresh hsim hfirst
      rw [hlen] at hloop hreplay
      have hdiv : cs.length / n = (cs.drop n).length / n + 1 := by
        rw [List.length_drop, Nat.div_eq_sub_div hn (Nat.le_of_not_lt hshort)]
      obtain ⟨checkpoints, t', hloop', hdev, hcount, hall⟩ := ih (by omega) hfresh1 hsim1 hrest
      rw [hloop'] at hloop
      refine ⟨_, t', hloop, hdev, by rw [List.length_cons, hcount, hdiv], fun i c hi => ?_⟩
      cases i with
      | zero =>
        cases hi
        rw [Nat.zero_mul, List.drop_zero]
        exact ⟨replayed, hreplay⟩
      | succ i =>
        obtain ⟨replayed', hi'⟩ := hall i c hi
        rw [List.drop_drop, Nat.add_comm n (i * n), ← Nat.succ_mul] at hi'
        exact ⟨replayed', hi'⟩

end CheckpointingTracer

/-- **Checkpoints hand out the trace again.** For a program whose trace is `cs`,
`trace_checkpoints` makes one checkpoint for each full interval and one for what
is left, and collecting the `i`th gives the `i`th interval of `cs`. -/
theorem traceCheckpoints_replay {inlines : Inlines} {cpu : Cpu} {n fuel : Nat} {t : CheckpointingTracer}
    (hn : 0 < n) (hplain : cpu.mmu.memory.checkpoint = .none)
    (h : collect (CheckpointingTracer.next inlines) fuel (.new cpu) = .some (cs, t)) : ∃ checkpoints device,
      traceCheckpoints inlines (cs.length / n + 1) cpu n = .some (checkpoints, device) ∧
      t.position.emulatorState.mmu.joltDevice = .some device ∧
      checkpoints.length = cs.length / n + 1 ∧
      ∀ i checkpoint, checkpoints[i]? = .some checkpoint → ∃ replayed,
        collect (Checkpoint.next inlines) (n + 1) checkpoint = .some ((cs.drop (i * n)).take n, replayed) := by
  obtain ⟨last, final, hyields, hend, -, hdev, hdevice⟩ := CheckpointingTracer.yields_of_collect rfl h
  have hfresh : (CheckpointingTracer.new cpu).startSavingCheckpoints.Fresh :=
    ⟨rfl, rfl, rfl, by
      change cpu.mmu.memory.checkpoint.or _ = _
      rw [hplain]
      rfl⟩
  have hsim : recording.SimPosition (CheckpointingTracer.new cpu).position
      (CheckpointingTracer.new cpu).startSavingCheckpoints.position :=
    ⟨rfl, rfl, rfl, rfl, rfl, by
      change (cpu.mmu.memory.checkpoint.or _).isSome
      rw [hplain]
      rfl⟩
  obtain ⟨checkpoints, t', hloop, hdev', hrest⟩ :=
    CheckpointingTracer.checkpointLoop_replays hn (Nat.lt_succ_self _) hfresh hsim hyields hend hdevice
  obtain ⟨device, hd⟩ := Option.isSome_iff_exists.mp hdevice
  refine ⟨checkpoints, device, ?_, hdev.trans hd, hrest⟩
  simp only [traceCheckpoints, hloop, Option.bind_eq_bind, Option.bind_some, hdev', hd]

/-- Checkpoints of the program that stores, every two cycles. -/
theorem traceCheckpoints_replay_storing : ∃ cs t checkpoints device,
    collect (CheckpointingTracer.next fun _ _ _ => .none) 6 (.new storingCpu) = .some (cs, t) ∧ cs.length = 5 ∧
      traceCheckpoints (fun _ _ _ => .none) 3 storingCpu 2 = .some (checkpoints, device) ∧ checkpoints.length = 3 ∧
      ∀ i checkpoint, checkpoints[i]? = .some checkpoint → ∃ replayed,
        collect (Checkpoint.next fun _ _ _ => .none) 3 checkpoint = .some ((cs.drop (i * 2)).take 2, replayed) := by
  obtain ⟨cs, t, hcs, hlength⟩ := storingCpu_trace
  obtain ⟨checkpoints, device, hsaved, -, hcount, hreplay⟩ := traceCheckpoints_replay (n := 2) (by decide) rfl hcs
  rw [hlength] at hsaved hcount
  exact ⟨cs, t, checkpoints, device, hcs, hlength, hsaved, hcount, hreplay⟩

end LightningJolt
