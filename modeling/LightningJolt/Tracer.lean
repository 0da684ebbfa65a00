/-
The tracer (`tracer/src/lib.rs`): the emulator stepped until its program
counter stays, the cycles of each step handed out one by one, and checkpoints
from which a stretch of the trace is replayed. A checkpoint holds the processor
at its start and, of memory, the value each doubleword accessed in the stretch
had at its first access.

An iterator is a function from its state to an item and the next state; the
outer `none` is a panic.
-/
import LightningJolt.Tick

namespace LightningJolt

/-! ## Iterators -/

section Iterators

variable {σ α : Type} (next : σ → Option (Option α × σ))

/-- `Iterator::collect` within a number of calls of `next`; `none` also if they do not suffice. -/
def collect : Nat → σ → Option (List α × σ)
  | 0, _ => .none
  | fuel + 1, s => do
    match ← next s with
    | (.none, s) => .some ([], s)
    | (.some a, s) =>
      let (as, s) ← collect fuel s
      .some (a :: as, s)

/-- `Itertools::dropping`: as many items are taken as there are, up to `n`. -/
def dropping : Nat → σ → Option σ
  | 0, s => .some s
  | n + 1, s => do
    match ← next s with
    | (.none, s) => .some s
    | (.some _, s) => dropping n s

end Iterators

/-! ## Steps -/

/-- What a tracer and a checkpoint have in common. -/
structure TracePosition where
  emulatorState : Cpu
  prevPc : U64
  /-- The cycles of the last step that are still to be handed out, the next one last. -/
  currentTraces : List Cycle

variable (inlines : Inlines)

/-- `step_emulator`: a program that jumps to itself has terminated. -/
def stepEmulator (cpu : Cpu) (prevPc : U64) : Option (List Cycle × Cpu × U64) := do
  if prevPc = cpu.pc then .some ([], cpu, prevPc)
  else
    let (cycles, cpu') ← cpu.tick inlines true
    .some (cycles, cpu', cpu.pc)

namespace TracePosition

/-- What the two `lazy_step_cycle`s share: the next cycle of the last step, or of a new one. -/
def lazyStep (p : TracePosition) : Option (Option Cycle × TracePosition) :=
  match p.currentTraces.getLast? with
  | .some c => .some (.some c, { p with currentTraces := p.currentTraces.dropLast })
  | .none => do
    let (cycles, cpu, prevPc) ← stepEmulator inlines p.emulatorState p.prevPc
    let traces := cycles.reverse
    .some (traces.getLast?, { emulatorState := cpu, prevPc, currentTraces := traces.dropLast })

/-- The position with another memory behind its processor. -/
def setMemory (p : TracePosition) (memory : MemoryData) : TracePosition :=
  { p with emulatorState := { p.emulatorState with mmu := { p.emulatorState.mmu with memory } } }

def memory (p : TracePosition) : MemoryData := p.emulatorState.mmu.memory

/-- `has_panicked`, which expects a device. -/
def hasPanicked (p : TracePosition) : Option Bool := p.emulatorState.mmu.joltDevice.map (·.panic)

end TracePosition

/-! ## Checkpoints -/

structure Checkpoint where
  position : TracePosition
  traceStepsRemaining : Nat

namespace Checkpoint

/-- `new_with_empty_memory`. -/
def newWithEmptyMemory (p : TracePosition) : Checkpoint where
  position := p.setMemory .empty
  traceStepsRemaining := 0

/-- `set_memory_state`. -/
def setMemoryState (c : Checkpoint) (data : MemoryData) (cyclesRemaining : Nat) : Checkpoint where
  position := c.position.setMemory data
  traceStepsRemaining := cyclesRemaining

/-- `lazy_step_cycle`; the count of remaining steps does not go below zero. -/
def lazyStepCycle (c : Checkpoint) : Option (Option Cycle × Checkpoint) := do
  match ← c.position.lazyStep inlines with
  | (.none, p) => .some (.none, { c with position := p })
  | (.some cycle, p) =>
    let traceStepsRemaining ← checkedSub c.traceStepsRemaining 1
    .some (.some cycle, { position := p, traceStepsRemaining })

/-- `GeneralizedLazyTraceIter::next` over a checkpoint. -/
def next (c : Checkpoint) : Option (Option Cycle × Checkpoint) := do
  if c.traceStepsRemaining = 0 then .some (.none, c)
  else
    let (cycle, c) ← c.lazyStepCycle inlines
    if cycle.isNone then
      let _ ← c.position.hasPanicked
      .some (cycle, c)
    else .some (cycle, c)

end Checkpoint

/-- `Memory::take_memory`: what is taken, and what is left. -/
def MemoryData.takeMemory (m : MemoryData) : MemoryData × MemoryData :=
  ({ m with checkpoint := .none }, { m with memory := fun _ => 0 })

structure CheckpointingTracer where
  position : TracePosition
  traceStepsSinceLastCheckpoint : Nat
  finished : Bool
  savedProcessorState : Option Checkpoint
  finalMemoryState : Option MemoryData

namespace CheckpointingTracer

/-- `CheckpointingTracer::new`. -/
def new (cpu : Cpu) : CheckpointingTracer where
  position := { emulatorState := cpu, prevPc := 0, currentTraces := [] }
  traceStepsSinceLastCheckpoint := 0
  finished := false
  savedProcessorState := .none
  finalMemoryState := .none

/-- `start_saving_checkpoints`. -/
def startSavingCheckpoints (t : CheckpointingTracer) : CheckpointingTracer :=
  { t with
    savedProcessorState := .some (.newWithEmptyMemory t.position)
    position := t.position.setMemory t.position.memory.startSavingCheckpoints }

/-- `save_checkpoint`: the state saved last with what memory has recorded since. -/
def saveCheckpoint (t : CheckpointingTracer) : Option (Checkpoint × CheckpointingTracer) := do
  let saved ← t.savedProcessorState
  let (data, memory) ← t.position.memory.saveCheckpoint
  .some (saved.setMemoryState data t.traceStepsSinceLastCheckpoint,
    { t with
      savedProcessorState := .some (.newWithEmptyMemory t.position)
      position := t.position.setMemory memory
      traceStepsSinceLastCheckpoint := 0 })

/-- `lazy_step_cycle`: a step without cycles ends the trace. -/
def lazyStepCycle (t : CheckpointingTracer) : Option (Option Cycle × CheckpointingTracer) := do
  match ← t.position.lazyStep inlines with
  | (.none, p) =>
    let (taken, left) := p.memory.takeMemory
    .some (.none, { t with finished := true, position := p.setMemory left, finalMemoryState := .some taken })
  | (.some cycle, p) =>
    .some (.some cycle, {
      t with position := p, traceStepsSinceLastCheckpoint := t.traceStepsSinceLastCheckpoint + 1 })

/-- `GeneralizedLazyTraceIter::next` over a tracer. -/
def next (t : CheckpointingTracer) : Option (Option Cycle × CheckpointingTracer) := do
  if t.finished then .some (.none, t)
  else
    let (cycle, t) ← t.lazyStepCycle inlines
    if cycle.isNone then
      let _ ← t.position.hasPanicked
      .some (cycle, t)
    else .some (cycle, t)

/-- The loop of `trace_checkpoints`, within a number of turns. -/
def checkpointLoop (checkpointInterval : Nat) : Nat → CheckpointingTracer →
    Option (List Checkpoint × CheckpointingTracer)
  | 0, _ => .none
  | fuel + 1, t => do
    let t ← dropping (next inlines) checkpointInterval t
    let (checkpoint, t) ← t.saveCheckpoint
    if t.finished then .some ([checkpoint], t)
    else
      let (checkpoints, t) ← checkpointLoop checkpointInterval fuel t
      .some (checkpoint :: checkpoints, t)

end CheckpointingTracer

/-- `trace_checkpoints`, from the emulator that `setup_emulator` makes. -/
def traceCheckpoints (fuel : Nat) (cpu : Cpu) (checkpointInterval : Nat) : Option (List Checkpoint × JoltDevice) := do
  let t := (CheckpointingTracer.new cpu).startSavingCheckpoints
  let (checkpoints, t) ← CheckpointingTracer.checkpointLoop inlines checkpointInterval fuel t
  let device ← t.position.emulatorState.mmu.joltDevice
  .some (checkpoints, device)

/-! ## Runs -/

namespace TracePosition

/-- The steps from `p` to `p'` hand out the cycles `cs`. -/
inductive Yields : TracePosition → List Cycle → TracePosition → Prop
  | nil (start : TracePosition) : Yields start [] start
  | cons {start next last : TracePosition} {c : Cycle} {rest : List Cycle}
    (h : start.lazyStep inlines = .some (.some c, next)) (hs : Yields next rest last) :
    Yields start (c :: rest) last

variable {inlines} {p p' : TracePosition} {cs : List Cycle}

theorem Yields.split (h : Yields inlines p cs p') (n : Nat) :
    ∃ p1, Yields inlines p (cs.take n) p1 ∧ Yields inlines p1 (cs.drop n) p' := by
  induction h generalizing n with
  | nil p =>
    rw [List.take_nil, List.drop_nil]
    exact ⟨p, .nil p, .nil p⟩
  | @cons p _ _ _ _ h hs ih =>
    cases n with
    | zero => exact ⟨p, .nil p, .cons h hs⟩
    | succ n =>
      obtain ⟨p2, hfirst, hrest⟩ := ih n
      exact ⟨p2, .cons h hfirst, hrest⟩

end TracePosition

open TracePosition

variable {inlines} {cs : List Cycle}

/-- What collecting a trace to its end says of the steps. -/
theorem CheckpointingTracer.yields_of_collect {fuel : Nat} {t t' : CheckpointingTracer} (hlive : t.finished = false)
    (h : collect (next inlines) fuel t = .some (cs, t')) : ∃ last final,
      Yields inlines t.position cs last ∧ last.lazyStep inlines = .some (.none, final) ∧
      t'.finalMemoryState = .some final.memory.takeMemory.1 ∧
      t'.position.emulatorState.mmu.joltDevice = final.emulatorState.mmu.joltDevice ∧
      final.emulatorState.mmu.joltDevice.isSome := by
  induction fuel generalizing t cs with
  | zero => cases h
  | succ fuel ih =>
    obtain ⟨⟨o, t1⟩, hnext, hrest⟩ := Option.bind_eq_some_iff.mp h
    rw [next, hlive, if_neg Bool.false_ne_true] at hnext
    obtain ⟨⟨o', t2⟩, hstep, hrun⟩ := Option.bind_eq_some_iff.mp hnext
    obtain ⟨⟨o'', p1⟩, hlazy, hpure⟩ := Option.bind_eq_some_iff.mp hstep
    cases o'' with
    | none =>
      cases hpure
      obtain ⟨panicked, hpanicked, hrun⟩ := Option.bind_eq_some_iff.mp hrun
      cases hrun
      cases hrest
      obtain ⟨d, hd, -⟩ := Option.map_eq_some_iff.mp hpanicked
      exact ⟨t.position, p1, .nil _, hlazy, rfl, rfl, Option.isSome_of_eq_some hd⟩
    | some c =>
      cases hpure
      cases hrun
      obtain ⟨⟨rest, t3⟩, hall, hpure⟩ := Option.bind_eq_some_iff.mp hrest
      cases hpure
      obtain ⟨last, final, hyields, hend⟩ := ih (by exact hlive) hall
      exact ⟨last, final, .cons hlazy hyields, hend⟩

/-- A machine whose program stores a value, loads it back and jumps to itself. -/
def storingCpu : Cpu :=
  { Cpu.new with
    pc := 0x80000000
    mmu := {
      -- addi x5, x0, 7; auipc x6, 0; sd x5, 28(x6); ld x7, 28(x6); jal x0, 0
      memory := {
        memory := fun i =>
          if i = 0 then 0x0000031700700293
          else if i = 1 then 0x01c3338300533e23
          else if i = 2 then 0x6f
          else 0
        numDoublewords := 8
        checkpoint := .none }
      joltDevice := JoltDevice.new {
        maxInputSize := 8, maxTrustedAdviceSize := 0, maxUntrustedAdviceSize := 0, maxOutputSize := 8
        stackSize := 16, heapSize := 16, programSize := .some 64 } } }

theorem storingCpu_trace : ∃ cs t,
    collect (CheckpointingTracer.next fun _ _ _ => .none) 6 (.new storingCpu) = .some (cs, t) ∧ cs.length = 5 := by
  have hlength : (collect (CheckpointingTracer.next fun _ _ _ => .none) 6 (.new storingCpu)).map
      (·.1.length) = .some 5 := by
    decide +kernel
  obtain ⟨⟨cs, t⟩, hcs, hlen⟩ := Option.map_eq_some_iff.mp hlength
  exact ⟨cs, t, hcs, hlen⟩

end LightningJolt
