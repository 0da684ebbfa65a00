/-
The opening points that the instances of stages 6 and 7 record, each from its own
slice of the batch's challenges, and the point stage 8 opens everything at.
-/
import LightningJolt.AdviceReduction

namespace LightningJolt

/-! ## One-hot parameters -/

/-- `OneHotConfig`, as it comes with a proof. -/
structure OneHotConfig where
  logKChunk : Nat
  lookupsRaVirtualLogKChunk : Nat
deriving DecidableEq

/-- `LOG_K`, of the instruction lookups. -/
def lookupsLogK : Nat := 128

/-- `validate`. -/
def OneHotConfig.validate (config : OneHotConfig) : Bool :=
  (config.logKChunk = 4 || config.logKChunk = 8) &&
    (decide (config.logKChunk ≤ config.lookupsRaVirtualLogKChunk) &&
      decide (config.lookupsRaVirtualLogKChunk ≤ lookupsLogK) &&
      decide (config.lookupsRaVirtualLogKChunk % config.logKChunk = 0) &&
      decide (lookupsLogK % config.lookupsRaVirtualLogKChunk = 0))

/-- `OneHotParams`, with the logarithms of the bytecode's and the memory's size. -/
structure OneHotParams where
  logKChunk : Nat
  lookupsRaVirtualLogKChunk : Nat
  bytecodeLogK : Nat
  ramLogK : Nat
deriving DecidableEq

/-- `div_ceil`. -/
def divCeil (a b : Nat) : Nat := (a + b - 1) / b

namespace OneHotParams

/-- `from_config`. -/
def fromConfig (config : OneHotConfig) (bytecodeK ramK : Nat) : Option OneHotParams := do
  let bytecodeLogK ← log2 bytecodeK
  let ramLogK ← log2 ramK
  .some ⟨config.logKChunk, config.lookupsRaVirtualLogKChunk, bytecodeLogK, ramLogK⟩

variable (p : OneHotParams)

def instructionD : Nat := divCeil lookupsLogK p.logKChunk
def bytecodeD : Nat := divCeil p.bytecodeLogK p.logKChunk
def ramD : Nat := divCeil p.ramLogK p.logKChunk

/-- `slice::chunks`. -/
def chunks {C : Type} (k : Nat) (xs : List C) : List (List C) :=
  (List.range (divCeil xs.length k)).map fun i => (xs.drop (i * k)).take k

/-- `compute_r_address_chunks`: zeros in front make the length a multiple of the chunk's. -/
def computeRAddressChunks {C : Type} [Zero C] (rAddress : List C) : List (List C) :=
  chunks p.logKChunk
    (if rAddress.length % p.logKChunk = 0 then rAddress
    else List.replicate (p.logKChunk - (rAddress.length &&& (p.logKChunk - 1))) 0 ++ rAddress)

/-- All committed one-hot polynomials, in the order of the reductions. -/
def polynomialTypes : List CommittedPolynomial :=
  (List.range p.instructionD).map .InstructionRa ++ (List.range p.bytecodeD).map .BytecodeRa ++
    (List.range p.ramD).map .RamRa

/-- A one-hot polynomial is one of the three families. -/
theorem mem_polynomialTypes {p : OneHotParams} {poly : CommittedPolynomial}
    (h : poly ∈ p.polynomialTypes) :
    (∃ i, poly = .InstructionRa i) ∨ (∃ i, poly = .BytecodeRa i) ∨ ∃ i, poly = .RamRa i := by
  rcases List.mem_append.mp h with h | h
  · rcases List.mem_append.mp h with h | h
    · obtain ⟨i, -, rfl⟩ := List.mem_map.mp h
      exact .inl ⟨i, rfl⟩
    · obtain ⟨i, -, rfl⟩ := List.mem_map.mp h
      exact .inr (.inl ⟨i, rfl⟩)
  · obtain ⟨i, -, rfl⟩ := List.mem_map.mp h
    exact .inr (.inr ⟨i, rfl⟩)

end OneHotParams

/-! ## Instances -/

/-- Openings with their points, in the order they are recorded. -/
abbrev Recorded (C : Type) := List (OpeningId × OpeningPoint C)

/-- What of a sumcheck instance decides the points it records. -/
structure PointInstance (C : Type) where
  numRounds : Nat
  roundOffset : Nat → Nat
  openings : List C → Option (Recorded C)

/-- The default of `round_offset`: an instance ends with the batch. -/
def PointInstance.suffix {C : Type} (numRounds : Nat) (openings : List C → Option (Recorded C)) :
    PointInstance C where
  numRounds
  roundOffset maxNumRounds := maxNumRounds - numRounds
  openings

/-- The points that a batch records, at each instance's slice of the challenges. -/
def recordAll {C : Type} (maxNumRounds : Nat) (r : List C) : List (PointInstance C) → Option (Recorded C)
  | [] => .some []
  | s :: rest => do
    let rSlice ← BatchedSumcheck.slice r (s.roundOffset maxNumRounds) s.numRounds
    let points ← s.openings rSlice
    let more ← recordAll maxNumRounds r rest
    .some (points ++ more)

/-- The number of rounds of a batch. -/
def maxRounds {C : Type} (instances : List (PointInstance C)) : Nat :=
  ((instances.map (·.numRounds)).max?).getD 0

/-- The point recorded for an opening. -/
def Recorded.point {C : Type} (recorded : Recorded C) (id : OpeningId) : Option (OpeningPoint C) :=
  (recorded.find? fun e => e.1 = id).map Prod.snd

/-! ## Stage 6 -/

section StageSix

variable {C : Type} [Zero C] (p : OneHotParams) (logT : Nat)

/-- `BytecodeReadRafSumcheckVerifier`. -/
def bytecodeReadRaf : PointInstance C :=
  .suffix (p.bytecodeLogK + logT) fun r =>
    let point := (r.take p.bytecodeLogK).reverse ++ (r.drop p.bytecodeLogK).reverse
    let rAddressChunks := p.computeRAddressChunks (point.take p.bytecodeLogK)
    (List.range p.bytecodeD).mapM fun i => do
      let chunk ← rAddressChunks[i]?
      .some (.committed (.BytecodeRa i) .BytecodeReadRaf, chunk ++ point.drop p.bytecodeLogK)

omit [Zero C] in
/-- `BooleanitySumcheckVerifier`. -/
def booleanity : PointInstance C :=
  .suffix (p.logKChunk + logT) fun r =>
    let point := (r.take p.logKChunk).reverse ++ (r.drop p.logKChunk).reverse
    .some (p.polynomialTypes.map fun poly => (.committed poly .Booleanity, point))

omit [Zero C] in
/-- `HammingBooleanitySumcheckVerifier`, of the cycle point it starts from. -/
def hammingBooleanity (rCycle : List C) : PointInstance C :=
  .suffix rCycle.length fun r =>
    .some [(.virt .RamHammingWeight .RamHammingBooleanity, r.reverse)]

/-- `RamRaVirtualSumcheckVerifier`, of the point of the reduced claim. -/
def ramRaVirtual (rReduced : List C) : PointInstance C :=
  .suffix logT fun r =>
    let rAddressChunks := p.computeRAddressChunks (rReduced.take p.ramLogK)
    (List.range p.ramD).mapM fun i => do
      let chunk ← rAddressChunks[i]?
      .some (.committed (.RamRa i) .RamRaVirtualization, chunk ++ r.reverse)

/-- `LookupsRaSumcheckVerifier`, of the points of the virtual polynomials. -/
def lookupsRaVirtual (rVirtual : List (List C)) : PointInstance C :=
  let rAddress := rVirtual.flatMap fun r => r.take p.lookupsRaVirtualLogKChunk
  .suffix ((rVirtual.headD []).drop p.lookupsRaVirtualLogKChunk).length fun r =>
    .some ((p.computeRAddressChunks rAddress).zipIdx.map fun (chunk, i) =>
      (.committed (.InstructionRa i) .InstructionRaVirtualization, chunk ++ r.reverse))

omit [Zero C] in
/-- `IncClaimReductionSumcheckVerifier`. -/
def incClaimReduction : PointInstance C :=
  .suffix logT fun r =>
    .some [(.committed .RamInc .IncClaimReduction, r.reverse), (.committed .RdInc .IncClaimReduction, r.reverse)]

omit [Zero C] in
/-- `AdviceClaimReductionVerifier`. -/
def adviceClaimReduction (layout : DoryLayout) (advice : AdviceClaimReductionParams C) : PointInstance C where
  numRounds := advice.numRounds
  roundOffset maxNumRounds :=
    match advice.phase with
    | .CycleVariables => maxNumRounds - (advice.logKChunk + advice.logT) + advice.logKChunk
    | .AddressVariables => 0
  openings := advice.openingsToCache layout

/-- What the instances of stage 6 take from earlier stages: points whose lengths the instances
that recorded them fix. -/
structure EarlierPoints (C : Type) (p : OneHotParams) (logT : Nat) where
  lookupOutput : List C
  ramRa : List C
  instructionRa : List (List C)
  length_lookupOutput : lookupOutput.length = logT
  length_ramRa : ramRa.length = p.ramLogK + logT
  length_instructionRa : instructionRa.length = lookupsLogK / p.lookupsRaVirtualLogKChunk
  length_each : ∀ r ∈ instructionRa, r.length = p.lookupsRaVirtualLogKChunk + logT

/-- The instances of stage 6 beside the advice. -/
def stage6Regular (earlier : EarlierPoints C p logT) : List (PointInstance C) :=
  [bytecodeReadRaf p logT, booleanity p logT, hammingBooleanity earlier.lookupOutput,
    ramRaVirtual p logT earlier.ramRa, lookupsRaVirtual p earlier.instructionRa, incClaimReduction logT]

def stage6 (layout : DoryLayout) (earlier : EarlierPoints C p logT)
    (advice : List (AdviceClaimReductionParams C)) : List (PointInstance C) :=
  stage6Regular p logT earlier ++ advice.map (adviceClaimReduction layout)

end StageSix

/-! ## Stage 7 -/

section StageSeven

variable {C : Type} (p : OneHotParams)

/-- `HammingWeightClaimReductionVerifier`, of the cycle point its parameters take from
Booleanity's opening. -/
def hammingWeightClaimReduction (rCycle : List C) : PointInstance C :=
  .suffix p.logKChunk fun r =>
    .some (p.polynomialTypes.map fun poly => (.committed poly .HammingWeightClaimReduction, r.reverse ++ rCycle))

/-- The advice instance in its second phase, after the challenges of the first. -/
def adviceAddressPhase (layout : DoryLayout) (maxNumRounds : Nat) (r6 : List C)
    (advice : AdviceClaimReductionParams C) : AdviceClaimReductionParams C :=
  advice.addressPhase layout ((BatchedSumcheck.slice r6
    ((adviceClaimReduction layout advice).roundOffset maxNumRounds) advice.numRounds).getD [])

/-- The instances of stage 7, from what stage 6 recorded. -/
def stage7 (layout : DoryLayout) (maxNumRounds : Nat) (r6 : List C) (recorded : Recorded C)
    (advice : List (AdviceClaimReductionParams C)) : Option (List (PointInstance C)) := do
  let unifiedBoolPoint ← recorded.point (.committed (.InstructionRa 0) .Booleanity)
  .some (hammingWeightClaimReduction p (unifiedBoolPoint.drop p.logKChunk) ::
    (advice.filter fun a => 0 < a.numAddressPhaseRounds).map fun a =>
      adviceClaimReduction layout (adviceAddressPhase layout maxNumRounds r6 a))

end StageSeven

/-! ## Stage 8 -/

section StageEight

variable {C : Type}

/-- The coordinates of a point in the order of the matrix index, lowest bit first
(`reorder_opening_point_for_layout`, reversed). -/
def matrixCoordinates (layout : DoryLayout) (logKChunk : Nat) (point : List C) : List C :=
  match layout with
  | .CycleMajor => point.reverse
  | .AddressMajor => (point.drop logKChunk ++ point.take logKChunk).reverse

/-- The point, in big-endian order, of the block of `2 ^ rowVars` rows and `2 ^ colVars` columns
at the top left of a matrix with `2 ^ sigma` columns. -/
def topLeftPoint (sigma colVars rowVars : Nat) (coordinates : List C) : List C :=
  (coordinates.take colVars ++ (coordinates.drop sigma).take rowVars).reverse

end StageEight

end LightningJolt
