/-
The advice claim reduction: a sumcheck over the advice polynomial cut in two, the
cycle variables bound in one stage and the address variables in the next, with a
claim the proof supplies in between.
-/
import LightningJolt.BatchedSumcheck
import LightningJolt.EqTable
import LightningJolt.Device

namespace LightningJolt

/-! ## Matrix shapes -/

inductive AdviceKind
  | Trusted | Untrusted
deriving DecidableEq

inductive ReductionPhase
  | CycleVariables | AddressVariables
deriving DecidableEq

inductive DoryLayout
  | CycleMajor | AddressMajor
deriving DecidableEq

/-- `Math::log_2`, rounded up to one more than the logarithm off the powers of two. -/
def log2 (n : Nat) : Option Nat :=
  if n = 0 then .none else if isPowerOfTwo n then .some n.log2 else .some (n.log2 + 1)

namespace DoryGlobals

def balancedSigmaNu (totalVars : Nat) : Nat × Nat :=
  let sigma := (totalVars + 1) / 2
  (sigma, totalVars - sigma)

def mainSigmaNu (logKChunk logT : Nat) : Nat × Nat := balancedSigmaNu (logKChunk + logT)

/-- `advice_sigma_nu_from_max_bytes`. -/
def adviceSigmaNuFromMaxBytes (maxAdviceSizeBytes : Nat) : Option (Nat × Nat) := do
  let len := max (nextPowerOfTwo (maxAdviceSizeBytes / 8)) 1
  .some (balancedSigmaNu (← log2 len))

end DoryGlobals

/-- `ONEHOT_CHUNK_THRESHOLD_LOG_T`. -/
def onehotChunkThresholdLogT : Nat := 25

/-- The `log_k_chunk` of `OneHotConfig::new`. -/
def defaultLogKChunk (logT : Nat) : Nat := if logT < onehotChunkThresholdLogT then 4 else 8

/-! ## Rounds of the cycle phase -/

/-- A `Range<usize>`. -/
structure RoundRange where
  start : Nat
  stop : Nat
deriving DecidableEq

namespace RoundRange

def len (range : RoundRange) : Nat := range.stop - range.start

def isEmpty (range : RoundRange) : Bool := range.stop ≤ range.start

/-- `&xs[range]`, which panics out of range. -/
def slice {C : Type} (range : RoundRange) (xs : List C) : Option (List C) :=
  if range.start ≤ range.stop ∧ range.stop ≤ xs.length then
    .some ((xs.drop range.start).take range.len)
  else .none

end RoundRange

/-- `cycle_phase_round_schedule`: the rounds of the columns and of the rows. -/
def cyclePhaseRoundSchedule (layout : DoryLayout) (logT logKChunk mainColVars adviceRowVars
    adviceColVars : Nat) : RoundRange × RoundRange :=
  match layout with
  | .CycleMajor =>
    (⟨0, min logT adviceColVars⟩, ⟨min logT mainColVars, min logT (mainColVars + adviceRowVars)⟩)
  | .AddressMajor =>
    (⟨0, adviceColVars - logKChunk⟩,
      ⟨mainColVars - logKChunk, min logT (mainColVars - logKChunk + adviceRowVars)⟩)

/-! ## The advice openings -/

namespace AdviceKind

def openingId : AdviceKind → SumcheckId → OpeningId
  | .Trusted => .TrustedAdvice
  | .Untrusted => .UntrustedAdvice

/-- The polynomial its openings are of. -/
def poly : AdviceKind → PolynomialId
  | .Trusted => .Committed .TrustedAdvice
  | .Untrusted => .Committed .UntrustedAdvice

theorem underlyingPolynomialId_openingId (kind : AdviceKind) (sc : SumcheckId) :
    underlyingPolynomialId (kind.openingId sc) = kind.poly := by
  cases kind <;> rfl

theorem poly_injective {kind kind' : AdviceKind} (h : kind.poly = kind'.poly) : kind = kind' := by
  cases kind <;> cases kind' <;> simp [poly] at h ⊢

end AdviceKind

/-- `get_advice_opening`, its aliases followed for `fuel` steps. -/
def VerifierOpeningAccumulator.getAdviceOpening {F C : Type} (fuel : Nat)
    (acc : VerifierOpeningAccumulator F C) (kind : AdviceKind) (sumcheck : SumcheckId) :
    Option (OpeningPoint C × F) := do
  acc.openings (← resolveAlias acc.aliases fuel (kind.openingId sumcheck))

/-! ## Parameters

`none` is a panic. -/

structure AdviceClaimReductionParams (C : Type) where
  kind : AdviceKind
  phase : ReductionPhase
  logKChunk : Nat
  logT : Nat
  adviceColVars : Nat
  adviceRowVars : Nat
  mainColVars : Nat
  mainRowVars : Nat
  cyclePhaseRowRounds : RoundRange
  cyclePhaseColRounds : RoundRange
  rVal : OpeningPoint C
  cycleVarChallenges : List C

namespace AdviceClaimReductionParams

variable {F C : Type} [JoltField F] [Challenge C F] [DecidableEq F] [DecidableEq C]
  (fuel : Nat) (layout : DoryLayout)

/-- `new`, for advice of at most so many bytes. -/
def new (kind : AdviceKind) (maxAdviceSizeBytes traceLen : Nat)
    (acc : VerifierOpeningAccumulator F C) : Option (AdviceClaimReductionParams C) := do
  let logT ← log2 traceLen
  let logKChunk := defaultLogKChunk logT
  let (mainColVars, mainRowVars) := DoryGlobals.mainSigmaNu logKChunk logT
  let (rVal, _) ← acc.getAdviceOpening fuel kind .RamValCheck
  let (adviceColVars, adviceRowVars) ← DoryGlobals.adviceSigmaNuFromMaxBytes maxAdviceSizeBytes
  let (colBindingRounds, rowBindingRounds) :=
    cyclePhaseRoundSchedule layout logT logKChunk mainColVars adviceRowVars adviceColVars
  .some {
    kind, logKChunk, logT, adviceColVars, adviceRowVars, mainColVars, mainRowVars, rVal
    phase := .CycleVariables
    cyclePhaseRowRounds := rowBindingRounds
    cyclePhaseColRounds := colBindingRounds
    cycleVarChallenges := [] }

variable (p : AdviceClaimReductionParams C)

def numAddressPhaseRounds : Nat :=
  p.adviceColVars + p.adviceRowVars - (p.cyclePhaseColRounds.len + p.cyclePhaseRowRounds.len)

def numRounds : Nat :=
  match p.phase with
  | .CycleVariables =>
    if !p.cyclePhaseRowRounds.isEmpty then p.cyclePhaseRowRounds.stop - p.cyclePhaseColRounds.start
    else p.cyclePhaseColRounds.len
  | .AddressVariables =>
    p.adviceColVars + p.adviceRowVars - (p.cyclePhaseRowRounds.len + p.cyclePhaseColRounds.len)

def inputClaim (acc : VerifierOpeningAccumulator F C) : Option F :=
  match p.phase with
  | .CycleVariables => .some (((acc.getAdviceOpening fuel p.kind .RamValCheck).map Prod.snd).getD 0)
  | .AddressVariables =>
    (acc.getAdviceOpening fuel p.kind .AdviceClaimReductionCyclePhase).map Prod.snd

def normalizeOpeningPoint (challenges : List C) : Option (OpeningPoint C) :=
  match p.phase with
  | .CycleVariables => do
    let col ← p.cyclePhaseColRounds.slice challenges
    let row ← p.cyclePhaseRowRounds.slice challenges
    .some (col ++ row).reverse
  | .AddressVariables =>
    match layout with
    | .CycleMajor => .some (p.cycleVarChallenges ++ challenges).reverse
    | .AddressMajor => .some (challenges ++ p.cycleVarChallenges).reverse

/-- The dummy rounds between those of the columns and those of the rows. -/
def gapLen : Nat :=
  if p.cyclePhaseRowRounds.isEmpty || p.cyclePhaseColRounds.isEmpty then 0
  else p.cyclePhaseRowRounds.start - p.cyclePhaseColRounds.stop

/-- The verifier's `expected_output_claim`. -/
def expectedOutputClaim (acc : VerifierOpeningAccumulator F C) (challenges : List C) : Option F :=
  match p.phase with
  | .CycleVariables =>
    (acc.getAdviceOpening fuel p.kind .AdviceClaimReductionCyclePhase).map Prod.snd
  | .AddressVariables => do
    let openingPoint ← p.normalizeOpeningPoint layout challenges
    let (_, adviceClaim) ← acc.getAdviceOpening fuel p.kind .AdviceClaimReduction
    guard (openingPoint.length = p.rVal.length)
    let eqEval := eqMle (openingPoint.map fun c => (Challenge.into c : F))
      (p.rVal.map fun c => (Challenge.into c : F))
    let scale := (List.range p.gapLen).foldl (fun acc _ => acc * (2 : F)⁻¹) 1
    .some (adviceClaim * eqEval * scale)

/-- The opening at the end of the cycle phase: the claim in between, at no point. -/
def cycleOpening (challenges : List C) : Option (List (OpeningId × OpeningPoint C)) :=
  match p.phase with
  | .CycleVariables => (p.normalizeOpeningPoint layout challenges).map fun _ =>
    [(p.kind.openingId .AdviceClaimReductionCyclePhase, [])]
  | .AddressVariables => .some []

/-- The opening of the advice polynomial. -/
def finalOpening (challenges : List C) : Option (List (OpeningId × OpeningPoint C)) :=
  if p.numAddressPhaseRounds = 0 ∨ p.phase = .AddressVariables then
    (p.normalizeOpeningPoint layout challenges).map fun openingPoint =>
      [(p.kind.openingId .AdviceClaimReduction, openingPoint)]
  else .some []

/-- The openings `cache_openings` appends, in order. -/
def openingsToCache (challenges : List C) : Option (List (OpeningId × OpeningPoint C)) := do
  let cycle ← p.cycleOpening layout challenges
  let final ← p.finalOpening layout challenges
  .some (cycle ++ final)

end AdviceClaimReductionParams

/-- Openings appended in turn. -/
def VerifierOpeningAccumulator.appendAll {F C : Type} [DecidableEq C] [DecidableEq F] [Zero F] :
    List (OpeningId × OpeningPoint C) → VerifierOpeningAccumulator F C →
      Option (VerifierOpeningAccumulator F C)
  | [], acc => .some acc
  | (id, point) :: calls, acc => do appendAll calls (← acc.populateOrAliasOpening id point)

namespace AdviceClaimReductionParams

variable {F C : Type} [JoltField F] [Challenge C F] [DecidableEq F] [DecidableEq C]
  (fuel : Nat) (layout : DoryLayout) (p : AdviceClaimReductionParams C)

/-- The verifier's `cache_openings`. -/
def cacheOpenings (acc : VerifierOpeningAccumulator F C) (challenges : List C) :
    Option (VerifierOpeningAccumulator F C) := do
  VerifierOpeningAccumulator.appendAll (← p.openingsToCache layout challenges) acc

/-- The parameters in the address phase, with the challenges `cache_openings` of the
cycle phase leaves in them. -/
def addressPhase (challenges : List C) : AdviceClaimReductionParams C :=
  { p with
    phase := .AddressVariables
    cycleVarChallenges := ((p.normalizeOpeningPoint layout challenges).getD []).reverse }

/-- `AdviceClaimReductionVerifier`, a panic of which is a default. -/
def verifier : SumcheckInstanceVerifier F C where
  degree := 2
  numRounds := p.numRounds
  roundOffset maxNumRounds :=
    match p.phase with
    | .CycleVariables => maxNumRounds - (p.logKChunk + p.logT) + p.logKChunk
    | .AddressVariables => 0
  inputClaim acc := (p.inputClaim fuel acc).getD 0
  expectedOutputClaim acc r := (p.expectedOutputClaim fuel layout acc r).getD 0
  cacheOpenings acc r := (p.cacheOpenings layout acc r).getD acc

end AdviceClaimReductionParams

end LightningJolt
