/-
The opening accumulators of the prover and of the verifier: the claimed
evaluations of committed and virtual polynomials, each at its point, with an
opening of a polynomial at a point it was already opened at kept as an alias
of the earlier one.
-/
import LightningJolt.LookupQuery
import LightningJolt.Transcript

namespace LightningJolt

inductive CommittedPolynomial
  | RdInc | RamInc
  | InstructionRa (i : Nat)
  | BytecodeRa (i : Nat)
  | RamRa (i : Nat)
  | TrustedAdvice | UntrustedAdvice
deriving DecidableEq

inductive VirtualPolynomial
  | PC | UnexpandedPC | NextPC | NextUnexpandedPC | NextIsNoop | NextIsVirtual
  | NextIsFirstInSequence | LeftLookupOperand | RightLookupOperand | LeftInstructionInput
  | RightInstructionInput | Product | ShouldJump | ShouldBranch | Rd | Imm | Rs1Value | Rs2Value
  | RdWriteValue | Rs1Ra | Rs2Ra | RdWa | LookupOutput | InstructionRaf | InstructionRafFlag
  | InstructionRa (i : Nat)
  | RegistersVal | RamAddress | RamRa | RamReadValue | RamWriteValue | RamVal | RamValInit
  | RamValFinal | RamHammingWeight | UnivariateSkip
  | OpFlags (flag : CircuitFlags)
  | InstructionFlags (flag : LightningJolt.InstructionFlags)
  | LookupTableFlag (i : Nat)
deriving DecidableEq

inductive SumcheckId
  | SpartanOuter | SpartanProductVirtualization | SpartanShift | InstructionClaimReduction
  | InstructionInputVirtualization | InstructionReadRaf | InstructionRaVirtualization
  | RamReadWriteChecking | RamRafEvaluation | RamOutputCheck | RamValCheck | RamRaClaimReduction
  | RamHammingBooleanity | RamRaVirtualization | RegistersClaimReduction
  | RegistersReadWriteChecking | RegistersValEvaluation | BytecodeReadRaf | Booleanity
  | AdviceClaimReductionCyclePhase | AdviceClaimReduction | IncClaimReduction
  | HammingWeightClaimReduction
deriving DecidableEq

inductive PolynomialId
  | Committed (poly : CommittedPolynomial)
  | Virtual (poly : VirtualPolynomial)
deriving DecidableEq

inductive OpeningId
  | Polynomial (poly : PolynomialId) (sumcheck : SumcheckId)
  | UntrustedAdvice (sumcheck : SumcheckId)
  | TrustedAdvice (sumcheck : SumcheckId)
deriving DecidableEq

namespace OpeningId

def virt (poly : VirtualPolynomial) (sc : SumcheckId) : OpeningId := .Polynomial (.Virtual poly) sc

def committed (poly : CommittedPolynomial) (sc : SumcheckId) : OpeningId :=
  .Polynomial (.Committed poly) sc

end OpeningId

/-- `underlying_polynomial_id`. -/
def underlyingPolynomialId : OpeningId → PolynomialId
  | .Polynomial poly _ => poly
  | .TrustedAdvice _ => .Committed .TrustedAdvice
  | .UntrustedAdvice _ => .Committed .UntrustedAdvice

/-- A point, in big-endian order. -/
abbrev OpeningPoint (C : Type) := List C

/-- The openings: a point and a claim for each id. -/
abbrev Openings (F C : Type) := OpeningId → Option (OpeningPoint C × F)

/-- A map with one more entry. -/
def insertEntry {K V : Type} [DecidableEq K] (m : K → Option V) (key : K) (v : V) : K → Option V :=
  fun k => if k = key then .some v else m k

@[simp] theorem insertEntry_self {K V : Type} [DecidableEq K] (m : K → Option V) (key : K) (v : V) :
    insertEntry m key v key = .some v := by simp [insertEntry]

theorem insertEntry_of_ne {K V : Type} [DecidableEq K] {m : K → Option V} {key k : K} {v : V}
    (h : k ≠ key) : insertEntry m key v k = m k := by simp [insertEntry, h]

/-- The loop of `resolve_alias`, cut off after `fuel` steps. -/
def resolveAlias (aliases : OpeningId → Option OpeningId) : Nat → OpeningId → Option OpeningId
  | 0, _ => .none
  | fuel + 1, key =>
    match aliases key with
    | .some next => resolveAlias aliases fuel next
    | .none => .some key

/-! ## The prover's accumulator

`none` is a panic. -/

structure ProverOpeningAccumulator (F C : Type) where
  openings : Openings F C
  openingIdsByPoly : PolynomialId → List OpeningId
  aliases : OpeningId → Option OpeningId
  pendingClaims : List F
  pendingClaimIds : List OpeningId

namespace ProverOpeningAccumulator

variable {F C T : Type}

def new : ProverOpeningAccumulator F C := ⟨fun _ => .none, fun _ => [], fun _ => .none, [], []⟩

/-- `index_opening_id`. -/
def indexOpeningId (acc : ProverOpeningAccumulator F C) (key : OpeningId) :
    ProverOpeningAccumulator F C :=
  { acc with openingIdsByPoly := fun poly =>
      if poly = underlyingPolynomialId key then acc.openingIdsByPoly poly ++ [key]
      else acc.openingIdsByPoly poly }

/-- A new opening: pending, recorded and indexed. -/
def placeOpening (acc : ProverOpeningAccumulator F C) (key : OpeningId) (point : OpeningPoint C)
    (claim : F) : ProverOpeningAccumulator F C :=
  { acc with
    pendingClaims := acc.pendingClaims ++ [claim]
    pendingClaimIds := acc.pendingClaimIds ++ [key]
    openings := insertEntry acc.openings key (point, claim) }.indexOpeningId key

/-- An id kept as an alias of an earlier one. -/
def addAlias (acc : ProverOpeningAccumulator F C) (key existingId : OpeningId) :
    ProverOpeningAccumulator F C :=
  { acc with aliases := insertEntry acc.aliases key existingId }

variable [DecidableEq C]

/-- The search of `find_existing_opening_at_point` through the ids of a polynomial. -/
def findAtPoint (openings : Openings F C) (point : OpeningPoint C) :
    List OpeningId → Option (Option (OpeningId × F))
  | [] => .some .none
  | existingId :: ids =>
    match openings existingId with
    | .none => .none
    | .some (existingPoint, existingClaim) =>
      if existingPoint = point then .some (.some (existingId, existingClaim))
      else findAtPoint openings point ids

def findExistingOpeningAtPoint (acc : ProverOpeningAccumulator F C) (poly : PolynomialId)
    (point : OpeningPoint C) : Option (Option (OpeningId × F)) :=
  findAtPoint acc.openings point (acc.openingIdsByPoly poly)

variable [DecidableEq F]

def insertOrAliasOpening (acc : ProverOpeningAccumulator F C) (key : OpeningId)
    (point : OpeningPoint C) (claim : F) : Option (Bool × ProverOpeningAccumulator F C) := do
  if (acc.openings key).isSome then .none
  else
    match ← acc.findExistingOpeningAtPoint (underlyingPolynomialId key) point with
    | .some (existingId, existingClaim) =>
      if claim = existingClaim then .some (false, acc.addAlias key existingId) else .none
    | .none => .some (true, acc.placeOpening key point claim)

def appendDense (acc : ProverOpeningAccumulator F C) (polynomial : CommittedPolynomial)
    (sumcheck : SumcheckId) (openingPoint : OpeningPoint C) (claim : F) :
    Option (ProverOpeningAccumulator F C) :=
  (acc.insertOrAliasOpening (.committed polynomial sumcheck) openingPoint claim).map Prod.snd

/-- The loop of `append_sparse`, over the polynomials and the claims zipped. -/
def appendSparseLoop (sumcheck : SumcheckId) (rConcat : OpeningPoint C) :
    List (CommittedPolynomial × F) → ProverOpeningAccumulator F C →
      Option (ProverOpeningAccumulator F C)
  | [], acc => .some acc
  | (label, claim) :: rest, acc => do
    let (_, acc) ← acc.insertOrAliasOpening (.committed label sumcheck) rConcat claim
    appendSparseLoop sumcheck rConcat rest acc

def appendSparse (acc : ProverOpeningAccumulator F C) (polynomials : List CommittedPolynomial)
    (sumcheck : SumcheckId) (rAddress rCycle : List C) (claims : List F) :
    Option (ProverOpeningAccumulator F C) :=
  appendSparseLoop sumcheck (rAddress ++ rCycle) (polynomials.zip claims) acc

def appendVirtual (acc : ProverOpeningAccumulator F C) (polynomial : VirtualPolynomial)
    (sumcheck : SumcheckId) (openingPoint : OpeningPoint C) (claim : F) :
    Option (ProverOpeningAccumulator F C) :=
  (acc.insertOrAliasOpening (.virt polynomial sumcheck) openingPoint claim).map Prod.snd

def appendUntrustedAdvice (acc : ProverOpeningAccumulator F C) (sumcheckId : SumcheckId)
    (openingPoint : OpeningPoint C) (claim : F) : Option (ProverOpeningAccumulator F C) :=
  (acc.insertOrAliasOpening (.UntrustedAdvice sumcheckId) openingPoint claim).map Prod.snd

def appendTrustedAdvice (acc : ProverOpeningAccumulator F C) (sumcheckId : SumcheckId)
    (openingPoint : OpeningPoint C) (claim : F) : Option (ProverOpeningAccumulator F C) :=
  (acc.insertOrAliasOpening (.TrustedAdvice sumcheckId) openingPoint claim).map Prod.snd

omit [DecidableEq C] [DecidableEq F] in
/-- `flush_to_transcript`. -/
def flushToTranscript (tr : Transcript T F C) (acc : ProverOpeningAccumulator F C) (t : T) :
    ProverOpeningAccumulator F C × T :=
  ({ acc with pendingClaims := [], pendingClaimIds := [] },
    acc.pendingClaims.foldl (fun t claim => tr.appendScalar t "opening_claim" claim) t)

end ProverOpeningAccumulator

/-! ## The verifier's accumulator -/

structure VerifierOpeningAccumulator (F C : Type) where
  openings : Openings F C
  openingIdsByPoly : PolynomialId → List OpeningId
  aliases : OpeningId → Option OpeningId
  pendingClaims : List F
  pendingClaimIds : List OpeningId
  flushHistory : Option (List (List F))

namespace VerifierOpeningAccumulator

variable {F C T : Type}

/-- `VerifierOpeningAccumulator::new` with the openings `JoltVerifier::new`
takes from the proof: the claims alone, at empty points. -/
def prepopulated (openingClaims : Openings F C) : VerifierOpeningAccumulator F C :=
  ⟨fun id => (openingClaims id).map fun (_, claim) => ([], claim), fun _ => [], fun _ => .none,
    [], [], .none⟩

/-- `index_opening_id`: an opening whose point is empty is not indexed. -/
def indexOpeningId (acc : VerifierOpeningAccumulator F C) (key : OpeningId) :
    VerifierOpeningAccumulator F C :=
  match acc.openings key with
  | .none => acc
  | .some (point, _) =>
    if point.isEmpty then acc
    else { acc with openingIdsByPoly := fun poly =>
      if poly = underlyingPolynomialId key then
        if key ∈ acc.openingIdsByPoly poly then acc.openingIdsByPoly poly
        else acc.openingIdsByPoly poly ++ [key]
      else acc.openingIdsByPoly poly }

variable [DecidableEq C]

/-- The search of `find_existing_opening_at_point`, past the empty points. -/
def findAtPoint (openings : Openings F C) (point : OpeningPoint C) :
    List OpeningId → Option (Option (OpeningId × F))
  | [] => .some .none
  | existingId :: ids =>
    match openings existingId with
    | .none => .none
    | .some (existingPoint, existingClaim) =>
      if existingPoint.isEmpty then findAtPoint openings point ids
      else if existingPoint = point then .some (.some (existingId, existingClaim))
      else findAtPoint openings point ids

def findExistingOpeningAtPoint (acc : VerifierOpeningAccumulator F C) (poly : PolynomialId)
    (point : OpeningPoint C) : Option (Option (OpeningId × F)) :=
  findAtPoint acc.openings point (acc.openingIdsByPoly poly)

omit [DecidableEq C] in
/-- A claim placed at its point: pending, recorded and indexed. -/
def placeOpening (acc : VerifierOpeningAccumulator F C) (key : OpeningId) (point : OpeningPoint C)
    (claim : F) : VerifierOpeningAccumulator F C :=
  { acc with
    pendingClaims := acc.pendingClaims ++ [claim]
    pendingClaimIds := acc.pendingClaimIds ++ [key]
    openings := insertEntry acc.openings key (point, claim) }.indexOpeningId key

omit [DecidableEq C] in
/-- An id kept as an alias of an earlier one. -/
def addAlias (acc : VerifierOpeningAccumulator F C) (key existingId : OpeningId) :
    VerifierOpeningAccumulator F C :=
  { acc with aliases := insertEntry acc.aliases key existingId }

variable [DecidableEq F] [Zero F]

def populateOrAliasOpening (acc : VerifierOpeningAccumulator F C) (key : OpeningId)
    (point : OpeningPoint C) : Option (VerifierOpeningAccumulator F C) := do
  match acc.openings key with
  | .some (_, claim) =>
    match ← acc.findExistingOpeningAtPoint (underlyingPolynomialId key) point with
    | .some (existingId, existingClaim) =>
      if existingId ≠ key then
        if claim = existingClaim then .some (acc.addAlias key existingId) else .none
      else .some (acc.placeOpening key point claim)
    | .none => .some (acc.placeOpening key point claim)
  | .none =>
    match ← acc.findExistingOpeningAtPoint (underlyingPolynomialId key) point with
    | .some (existingId, _) => .some (acc.addAlias key existingId)
    -- the placeholder of the zero-knowledge mode, where claims are not populated in advance
    | .none => .some (acc.placeOpening key point 0)

def appendDense (acc : VerifierOpeningAccumulator F C) (polynomial : CommittedPolynomial)
    (sumcheck : SumcheckId) (openingPoint : OpeningPoint C) :
    Option (VerifierOpeningAccumulator F C) :=
  acc.populateOrAliasOpening (.committed polynomial sumcheck) openingPoint

/-- `append_sparse`, a loop over the polynomials. -/
def appendSparse (sumcheck : SumcheckId) (openingPoint : OpeningPoint C) :
    List CommittedPolynomial → VerifierOpeningAccumulator F C →
      Option (VerifierOpeningAccumulator F C)
  | [], acc => .some acc
  | label :: rest, acc => do
    let acc ← acc.populateOrAliasOpening (.committed label sumcheck) openingPoint
    appendSparse sumcheck openingPoint rest acc

def appendVirtual (acc : VerifierOpeningAccumulator F C) (polynomial : VirtualPolynomial)
    (sumcheck : SumcheckId) (openingPoint : OpeningPoint C) :
    Option (VerifierOpeningAccumulator F C) :=
  acc.populateOrAliasOpening (.virt polynomial sumcheck) openingPoint

def appendUntrustedAdvice (acc : VerifierOpeningAccumulator F C) (sumcheckId : SumcheckId)
    (openingPoint : OpeningPoint C) : Option (VerifierOpeningAccumulator F C) :=
  acc.populateOrAliasOpening (.UntrustedAdvice sumcheckId) openingPoint

def appendTrustedAdvice (acc : VerifierOpeningAccumulator F C) (sumcheckId : SumcheckId)
    (openingPoint : OpeningPoint C) : Option (VerifierOpeningAccumulator F C) :=
  acc.populateOrAliasOpening (.TrustedAdvice sumcheckId) openingPoint

omit [DecidableEq C] [DecidableEq F] [Zero F] in
/-- `flush_to_transcript`. -/
def flushToTranscript (tr : Transcript T F C) (acc : VerifierOpeningAccumulator F C) (t : T) :
    VerifierOpeningAccumulator F C × T :=
  ({ acc with
      flushHistory := acc.flushHistory.map (· ++ [acc.pendingClaims])
      pendingClaims := []
      pendingClaimIds := [] },
    acc.pendingClaims.foldl (fun t claim => tr.appendScalar t "opening_claim" claim) t)

end VerifierOpeningAccumulator

end LightningJolt
