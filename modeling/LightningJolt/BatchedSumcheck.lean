/-
A batch of sumchecks proved and verified as one. An instance of fewer rounds
than the batch is active from its offset on; in the other rounds its message
is the constant that halves its claim, which starts scaled to make up for it.
-/
import LightningJolt.SumcheckProof

namespace LightningJolt

/-- The methods of a `SumcheckInstanceProver` the batch calls, beside its state. -/
structure SumcheckInstanceProver (S F C : Type) where
  state : S
  numRounds : Nat
  roundOffset : Nat → Nat
  inputClaim : ProverOpeningAccumulator F C → F
  computeMessage : S → Nat → F → UniPoly F × S
  ingestChallenge : S → C → Nat → S
  finalize : S → S
  cacheOpenings : S → ProverOpeningAccumulator F C → List C → ProverOpeningAccumulator F C

section Scaling

variable {F : Type} [JoltField F]

/-- The loop of `mul_pow_2`. -/
def mulPow2Loop : Nat → Nat → F → F
  | 0, pow, res => res * ((2 ^ pow : Nat) : F)
  | fuel + 1, pow, res =>
    if pow ≥ 64 then mulPow2Loop fuel (pow - 63) (res * ((2 ^ 63 : Nat) : F))
    else res * ((2 ^ pow : Nat) : F)

/-- `mul_pow_2`, which panics above 255. -/
def mulPow2 (x : F) (pow : Nat) : Option F :=
  if pow > 255 then .none else .some (mulPow2Loop pow pow x)

theorem mulPow2Loop_eq (fuel pow : Nat) (res : F) : mulPow2Loop fuel pow res = res * 2 ^ pow := by
  induction fuel generalizing pow res with
  | zero => simp [mulPow2Loop]
  | succ fuel ih =>
    by_cases hpow : pow ≥ 64
    · have hsplit : (2 : F) ^ pow = 2 ^ 63 * 2 ^ (pow - 63) := by
        rw [← pow_add]
        congr 1
        omega
      simp only [mulPow2Loop, hpow, ite_true, ih, hsplit]
      push_cast
      ring
    · simp [mulPow2Loop, hpow]

theorem mulPow2_eq {x : F} {pow : Nat} (h : pow ≤ 255) : mulPow2 x pow = .some (x * 2 ^ pow) := by
  simp [mulPow2, show ¬ pow > 255 by omega, mulPow2Loop_eq]

end Scaling

/-! ## Proving -/

namespace BatchedSumcheck

variable {S F C T : Type} [JoltField F] [Challenge C F] (tr : Transcript T F C)

/-- Whether an instance is active in a round of the batch. -/
def active (sumcheck : SumcheckInstanceProver S F C) (maxNumRounds round : Nat) : Bool :=
  let offset := sumcheck.roundOffset maxNumRounds
  round ≥ offset && round < offset + sumcheck.numRounds

/-- The message of an instance in a round, and the instance after it. -/
def roundMessage (maxNumRounds round : Nat) (sumcheck : SumcheckInstanceProver S F C)
    (previousClaim : F) : UniPoly F × SumcheckInstanceProver S F C :=
  if active sumcheck maxNumRounds round then
    let (message, state) := sumcheck.computeMessage sumcheck.state
      (round - sumcheck.roundOffset maxNumRounds) previousClaim
    (message, { sumcheck with state })
  else (⟨[previousClaim * 2⁻¹]⟩, sumcheck)

/-- An instance after the challenge of a round. -/
def ingest (maxNumRounds round : Nat) (sumcheck : SumcheckInstanceProver S F C) (rJ : C) :
    SumcheckInstanceProver S F C :=
  if active sumcheck maxNumRounds round then
    let state := sumcheck.ingestChallenge sumcheck.state rJ
      (round - sumcheck.roundOffset maxNumRounds)
    { sumcheck with state }
  else sumcheck

/-- A buffer plus a multiple of a polynomial's coefficients, as far as both go. -/
def addScaled : List F → List F → F → List F
  | acc :: accs, c :: cs, coeff => (acc + c * coeff) :: addScaled accs cs coeff
  | accs, _, _ => accs

/-- The linear combination of the polynomials of a round. -/
def batchPolys (polys : List (UniPoly F)) (coeffs : List F) : UniPoly F :=
  let maxDegree := ((polys.map fun p => p.coeffs.length).max?).getD 0
  ⟨(polys.zip coeffs).foldl (fun acc (poly, coeff) => addScaled acc poly.coeffs coeff)
    (List.replicate maxDegree 0)⟩

/-- The instances, each with its running claim. -/
abbrev Running (S F C : Type) := List (SumcheckInstanceProver S F C × F)

/-- The messages of a round, with the instances after them. -/
def messages (maxNumRounds round : Nat) (running : Running S F C) :
    List (UniPoly F × SumcheckInstanceProver S F C) :=
  running.map fun (sumcheck, claim) => roundMessage maxNumRounds round sumcheck claim

/-- The instances and claims after the challenge of a round. -/
def nextRunning (maxNumRounds round : Nat) (running : Running S F C) (rJ : C) :
    Option (Running S F C) :=
  (messages maxNumRounds round running).mapM fun (poly, sumcheck) => do
    let claim ← poly.evaluate rJ
    .some (ingest maxNumRounds round sumcheck rJ, claim)

/-- What the rounds of `prove` leave. -/
structure Rounds (S T F C : Type) where
  running : Running S F C
  rSumcheck : List C
  compressedPolys : List (CompressedUniPoly F)
  transcript : T

/-- The rounds of `prove`: `rounds` of them, from `round` on. -/
def proveRounds (maxNumRounds : Nat) (batchingCoeffs : List F) :
    Nat → Nat → Rounds S T F C → Option (Rounds S T F C)
  | 0, _, s => .some s
  | rounds + 1, round, s => do
    let polys := (messages maxNumRounds round s.running).map Prod.fst
    let compressed ← (batchPolys polys batchingCoeffs).compress
    let t := tr.appendScalars s.transcript "sumcheck_poly" compressed.coeffsExceptLinearTerm
    let (rJ, t) := tr.challengeScalarOptimized t
    let running ← nextRunning maxNumRounds round s.running rJ
    proveRounds maxNumRounds batchingCoeffs rounds (round + 1)
      ⟨running, s.rSumcheck ++ [rJ], s.compressedPolys ++ [compressed], t⟩

/-- `&r_sumcheck[start..start + len]`. -/
def slice (r : List C) (start len : Nat) : Option (List C) :=
  if start + len ≤ r.length then .some ((r.drop start).take len) else .none

/-- The openings each instance caches, at its slice of the challenges. -/
def cacheAll (maxNumRounds : Nat) (r : List C) :
    List (SumcheckInstanceProver S F C) → ProverOpeningAccumulator F C →
      Option (ProverOpeningAccumulator F C)
  | [], acc => .some acc
  | sumcheck :: rest, acc => do
    let rSlice ← slice r (sumcheck.roundOffset maxNumRounds) sumcheck.numRounds
    cacheAll maxNumRounds r rest (sumcheck.cacheOpenings sumcheck.state acc rSlice)

/-- The sum of the claims, each times its coefficient. -/
def combine (claims coeffs : List F) : F :=
  ((claims.zip coeffs).map fun (claim, coeff) => claim * coeff).sum

/-- `BatchedSumcheck::prove`: the proof, the challenges and the initial batched
claim. -/
def prove (sumcheckInstances : List (SumcheckInstanceProver S F C))
    (acc : ProverOpeningAccumulator F C) (t : T) :
    Option ((ClearSumcheckProof F × List C × F) × ProverOpeningAccumulator F C × T) := do
  let maxNumRounds ← (sumcheckInstances.map (·.numRounds)).max?
  let t := sumcheckInstances.foldl
    (fun t sumcheck => tr.appendScalar t "sumcheck_claim" (sumcheck.inputClaim acc)) t
  let (batchingCoeffs, t) := tr.challengeVector t sumcheckInstances.length
  let individualClaims ← sumcheckInstances.mapM fun sumcheck =>
    mulPow2 (sumcheck.inputClaim acc) (maxNumRounds - sumcheck.numRounds)
  let initialBatchedClaim := combine individualClaims batchingCoeffs
  let s ← proveRounds tr maxNumRounds batchingCoeffs maxNumRounds 0
    ⟨sumcheckInstances.zip individualClaims, [], [], t⟩
  let finalized := s.running.map fun (sumcheck, _) =>
    { sumcheck with state := sumcheck.finalize sumcheck.state }
  let acc ← cacheAll maxNumRounds s.rSumcheck finalized acc
  let (acc, t) := acc.flushToTranscript tr s.transcript
  .some ((⟨s.compressedPolys⟩, s.rSumcheck, initialBatchedClaim), acc, t)

/-! ## Verifying -/

/-- The openings each instance caches and the output claims it expects, at the
slice `start` gives it. -/
def expectAll (start : SumcheckInstanceVerifier F C → Nat × Nat) (r : List C) :
    List (SumcheckInstanceVerifier F C × F) → VerifierOpeningAccumulator F C →
      Option (F × VerifierOpeningAccumulator F C)
  | [], acc => .some (0, acc)
  | (sumcheck, coeff) :: rest, acc => do
    let rSlice ← slice r (start sumcheck).1 (start sumcheck).2
    let acc := sumcheck.cacheOpenings acc rSlice
    let claim := sumcheck.expectedOutputClaim acc rSlice
    let (sum, acc) ← expectAll start r rest acc
    .some (claim * coeff + sum, acc)

/-- The part `verify` and `verify_standard` share, up to the slices: those of
`verify_standard` all end with the last challenge. -/
def verifyWith [DecidableEq F] (start : Nat → List C → SumcheckInstanceVerifier F C → Nat × Nat)
    (proof : ClearSumcheckProof F) (sumcheckInstances : List (SumcheckInstanceVerifier F C))
    (acc : VerifierOpeningAccumulator F C) (t : T) :
    Option (Except ProofVerifyError (List F × List C) × VerifierOpeningAccumulator F C × T) := do
  let maxDegree ← (sumcheckInstances.map (·.degree)).max?
  let maxNumRounds ← (sumcheckInstances.map (·.numRounds)).max?
  let t := sumcheckInstances.foldl
    (fun t sumcheck => tr.appendScalar t "sumcheck_claim" (sumcheck.inputClaim acc)) t
  let (batchingCoeffs, t) := tr.challengeVector t sumcheckInstances.length
  let individualClaims ← sumcheckInstances.mapM fun sumcheck =>
    mulPow2 (sumcheck.inputClaim acc) (maxNumRounds - sumcheck.numRounds)
  let claim := combine individualClaims batchingCoeffs
  match ← proof.verify tr claim maxNumRounds maxDegree t with
  | (.error e, t) => .some (.error e, acc, t)
  | (.ok (outputClaim, rSumcheck), t) =>
    let (expectedOutputClaim, acc) ← expectAll (start maxNumRounds rSumcheck) rSumcheck
      (sumcheckInstances.zip batchingCoeffs) acc
    let (acc, t) := acc.flushToTranscript tr t
    if outputClaim ≠ expectedOutputClaim then
      .some (.error .SumcheckVerificationError, acc, t)
    else .some (.ok (batchingCoeffs, rSumcheck), acc, t)

/-- `BatchedSumcheck::verify` on a clear proof: an instance's slice starts at its
offset. -/
def verify [DecidableEq F] (proof : ClearSumcheckProof F)
    (sumcheckInstances : List (SumcheckInstanceVerifier F C))
    (acc : VerifierOpeningAccumulator F C) (t : T) :
    Option (Except ProofVerifyError (List F × List C) × VerifierOpeningAccumulator F C × T) :=
  verifyWith tr (fun maxNumRounds _ s => (s.roundOffset maxNumRounds, s.numRounds)) proof
    sumcheckInstances acc t

/-- `BatchedSumcheck::verify_standard`: `&r_sumcheck[max_num_rounds - num_rounds..]`,
whatever the offset. -/
def verifyStandard [DecidableEq F] (proof : ClearSumcheckProof F)
    (sumcheckInstances : List (SumcheckInstanceVerifier F C))
    (acc : VerifierOpeningAccumulator F C) (t : T) :
    Option (Except ProofVerifyError (List C) × VerifierOpeningAccumulator F C × T) := do
  let (result, acc, t) ← verifyWith tr (fun maxNumRounds r s =>
    (maxNumRounds - s.numRounds, r.length - (maxNumRounds - s.numRounds))) proof
    sumcheckInstances acc t
  .some (result.map Prod.snd, acc, t)

/-- A transcript whose challenges count up. -/
def countingTranscript : Transcript Nat (ZMod 7) (ZMod 7) where
  rawAppendLabel t _ := t
  rawAppendLabelWithLen t _ _ := t
  rawAppendScalar t _ := t
  challengeScalar t := (1, t + 1)
  challengeScalarOptimized t := (t, t + 1)

end BatchedSumcheck

end LightningJolt
