/-
The verification of one sumcheck proof and of one univariate-skip round, on
proofs of any shape: which of them are answered, and which crash the verifier.
-/
import LightningJolt.Openings
import LightningJolt.UniPoly

namespace LightningJolt

inductive ProofVerifyError
  | InvalidInputLength (expected got : Nat)
  | SumcheckVerificationError
  | UniSkipVerificationError
deriving DecidableEq

/-- The methods of a `SumcheckInstanceVerifier` the verification calls. -/
structure SumcheckInstanceVerifier (F C : Type) where
  degree : Nat
  numRounds : Nat
  roundOffset : Nat → Nat
  inputClaim : VerifierOpeningAccumulator F C → F
  expectedOutputClaim : VerifierOpeningAccumulator F C → List C → F
  cacheOpenings : VerifierOpeningAccumulator F C → List C → VerifierOpeningAccumulator F C

structure ClearSumcheckProof (F : Type) where
  compressedPolys : List (CompressedUniPoly F)

structure UniSkipFirstRoundProof (F : Type) where
  uniPoly : UniPoly F

/-! ## The verification

The outer `none` is a panic; the transcript is left as the rounds left it. -/

section Verify

variable {F C T : Type} [JoltField F] [Challenge C F] (tr : Transcript T F C)

/-- The rounds of `ClearSumcheckProof::verify`: the running claim and the
challenges so far. -/
def ClearSumcheckProof.verifyRounds (degreeBound : Nat) :
    List (CompressedUniPoly F) → F → List C → T →
      Option (Except ProofVerifyError (F × List C) × T)
  | [], e, r, t => .some (.ok (e, r), t)
  | poly :: polys, e, r, t =>
    if poly.degree > degreeBound then
      .some (.error (.InvalidInputLength degreeBound poly.degree), t)
    else
      let t := tr.appendScalars t "sumcheck_poly" poly.coeffsExceptLinearTerm
      let (rI, t) := tr.challengeScalarOptimized t
      match poly.evalFromHint e rI with
      | .none => .none
      | .some e => verifyRounds degreeBound polys e (r ++ [rI]) t

def ClearSumcheckProof.verify (proof : ClearSumcheckProof F) (claim : F)
    (numRounds degreeBound : Nat) (t : T) : Option (Except ProofVerifyError (F × List C) × T) :=
  if proof.compressedPolys.length ≠ numRounds then
    .some (.error (.InvalidInputLength numRounds proof.compressedPolys.length), t)
  else verifyRounds tr degreeBound proof.compressedPolys claim [] t

def UniSkipFirstRoundProof.verify [DecidableEq F] (π : BuildProfile) (windowN numCoeffs : Nat)
    (proof : UniSkipFirstRoundProof F) (instance_ : SumcheckInstanceVerifier F C)
    (acc : VerifierOpeningAccumulator F C) (t : T) :
    Option (Except ProofVerifyError C × VerifierOpeningAccumulator F C × T) := do
  let degreeBound := instance_.degree
  let degree ← proof.uniPoly.degree π
  if degree > degreeBound then
    .some (.error (.InvalidInputLength degreeBound degree), acc, t)
  else
    let t := tr.appendScalars t "uniskip_poly" proof.uniPoly.coeffs
    let (r0, t) := tr.challengeScalarOptimized t
    let inputClaim := instance_.inputClaim acc
    let ok ← proof.uniPoly.checkSumEvals π windowN numCoeffs inputClaim
    let acc := instance_.cacheOpenings acc [r0]
    let (acc, t) := acc.flushToTranscript tr t
    if !ok then .some (.error .UniSkipVerificationError, acc, t)
    else .some (.ok r0, acc, t)

end Verify

/-! ## Which proofs are answered -/

section Answered

variable {F C T : Type} [JoltField F] [Challenge C F] (tr : Transcript T F C)

/-- The rounds crash at the first message without a constant term, unless an
earlier one is refused for its degree. -/
theorem ClearSumcheckProof.isSome_verifyRounds (degreeBound : Nat)
    (polys : List (CompressedUniPoly F)) (e : F) (r : List C) (t : T) :
    (verifyRounds tr degreeBound polys e r t).isSome ↔
      ∀ k (hk : k < polys.length),
        (∀ j (hj : j < k), (polys[j].degree ≤ degreeBound)) →
          polys[k].coeffsExceptLinearTerm ≠ [] := by
  induction polys generalizing e r t with
  | nil => simp [verifyRounds]
  | cons poly polys ih =>
    by_cases hdeg : poly.degree > degreeBound
    · simp only [verifyRounds, hdeg, ite_true, Option.isSome_some, true_iff]
      intro k hk hearlier hnil
      cases k with
      | zero =>
        simp only [List.getElem_cons_zero] at hnil
        simp [CompressedUniPoly.degree, hnil] at hdeg
      | succ k =>
        have hfirst := hearlier 0 (by omega)
        simp only [List.getElem_cons_zero] at hfirst
        omega
    · simp only [verifyRounds, hdeg, ite_false]
      have hle : poly.degree ≤ degreeBound := by omega
      cases hpoly : poly.coeffsExceptLinearTerm with
      | nil =>
        simp only [CompressedUniPoly.evalFromHint, hpoly, Option.isSome_none, Bool.false_eq_true,
          false_iff]
        intro hall
        exact hall 0 (by simp) (by simp) hpoly
      | cons c rest =>
        simp only [CompressedUniPoly.evalFromHint, hpoly, ih]
        constructor
        · intro hall k hk hearlier
          cases k with
          | zero => simp [hpoly]
          | succ k =>
            refine hall k (by simpa using hk) fun j hj => ?_
            simpa using hearlier (j + 1) (by omega)
        · intro hall k hk hearlier
          refine hall (k + 1) (by simpa using hk) fun j hj => ?_
          cases j with
          | zero => simpa using hle
          | succ j => simpa using hearlier j (by omega)

theorem ClearSumcheckProof.isSome_verify (proof : ClearSumcheckProof F) (claim : F)
    (numRounds degreeBound : Nat) (t : T) :
    (proof.verify tr claim numRounds degreeBound t).isSome ↔
      (proof.compressedPolys.length = numRounds →
        ∀ k (hk : k < proof.compressedPolys.length),
          (∀ j (hj : j < k), (proof.compressedPolys[j].degree ≤ degreeBound)) →
            proof.compressedPolys[k].coeffsExceptLinearTerm ≠ []) := by
  unfold verify
  by_cases hlen : proof.compressedPolys.length = numRounds
  · simp only [hlen, ne_eq, not_true_eq_false, ite_false, isSome_verifyRounds, true_implies]
  · simp [hlen]

/-- What `check_sum_evals` needs: the coefficient count its debug assertion
asks for, power sums that fit, and one of them for each coefficient. -/
def UniPoly.Checkable (π : BuildProfile) (windowN outLen degree : Nat) (p : UniPoly F) : Prop :=
  (π.debugAssertions → π.addUsize degree 1 = .some outLen) ∧ (powerSums π windowN outLen).isSome ∧
    p.coeffs.length ≤ outLen

theorem UniPoly.isSome_checkSumEvals [DecidableEq F] {π : BuildProfile} {degree : Nat}
    {p : UniPoly F} (windowN outLen : Nat) (hdegree : p.degree π = .some degree) (claim : F) :
    (p.checkSumEvals π windowN outLen claim).isSome ↔ p.Checkable π windowN outLen degree := by
  have hsum : ∀ sums, powerSums π windowN outLen = .some sums →
      ((checkSumLoop p.coeffs sums 0).isSome ↔ p.coeffs.length ≤ outLen) := by
    intro sums hsums
    rw [isSome_checkSumLoop, length_powerSums hsums]
  have hanswer : ∀ x : Option F,
      (x.bind fun sum => .some (decide (sum = claim))).isSome = x.isSome := by
    intro x
    cases x <;> rfl
  unfold checkSumEvals Checkable
  cases hsums : powerSums π windowN outLen with
  | none => cases π.debugAssertions <;> simp [hdegree]
  | some sums =>
    have hloop := hsum sums hsums
    cases hdebug : π.debugAssertions with
    | false => simp [hanswer, ← hloop]
    | true =>
      cases hadd : π.addUsize degree 1 with
      | none => simp [hdegree, hadd]
      | some n =>
        by_cases hn : n = outLen <;> simp [hdegree, hadd, hn, hanswer, ← hloop]

omit [Challenge C F] in
theorem UniSkipFirstRoundProof.isSome_verify [DecidableEq F] (π : BuildProfile)
    (windowN numCoeffs : Nat) (proof : UniSkipFirstRoundProof F)
    (instance_ : SumcheckInstanceVerifier F C) (acc : VerifierOpeningAccumulator F C) (t : T) :
    (proof.verify tr π windowN numCoeffs instance_ acc t).isSome ↔
      ∃ degree, proof.uniPoly.degree π = .some degree ∧
        (degree ≤ instance_.degree → proof.uniPoly.Checkable π windowN numCoeffs degree) := by
  unfold verify
  cases hdegree : proof.uniPoly.degree π with
  | none => simp
  | some degree =>
    by_cases hbound : degree > instance_.degree
    · simp [hbound]
    · have hcheck := UniPoly.isSome_checkSumEvals windowN numCoeffs hdegree
        (instance_.inputClaim acc)
      cases hsum : proof.uniPoly.checkSumEvals π windowN numCoeffs (instance_.inputClaim acc) with
      | none =>
        simp only [hsum, Option.isSome_none, Bool.false_eq_true, false_iff] at hcheck
        simp [hbound, hsum, hcheck]
      | some ok =>
        simp only [hsum, Option.isSome_some, true_iff] at hcheck
        cases ok <;> simp [hbound, hsum, hcheck]

/-- **Which malformed proofs crash the verifier**: a sumcheck proof with an
empty message in a round that is reached; a univariate-skip round with an
empty polynomial where overflow is checked, or with one of a degree within the
bound that the check of its sum cannot take. -/
theorem answers_iff [DecidableEq F] (π : BuildProfile) :
    (∀ (proof : ClearSumcheckProof F) (claim : F) (numRounds degreeBound : Nat) (t : T),
      (proof.verify tr claim numRounds degreeBound t).isSome ↔
        (proof.compressedPolys.length = numRounds →
          ∀ k (hk : k < proof.compressedPolys.length),
            (∀ j (hj : j < k), (proof.compressedPolys[j].degree ≤ degreeBound)) →
              proof.compressedPolys[k].coeffsExceptLinearTerm ≠ [])) ∧
    ∀ (windowN numCoeffs : Nat) (proof : UniSkipFirstRoundProof F)
      (instance_ : SumcheckInstanceVerifier F C) (acc : VerifierOpeningAccumulator F C) (t : T),
      (proof.verify tr π windowN numCoeffs instance_ acc t).isSome ↔
        ∃ degree, proof.uniPoly.degree π = .some degree ∧
          (degree ≤ instance_.degree → proof.uniPoly.Checkable π windowN numCoeffs degree) :=
  ⟨ClearSumcheckProof.isSome_verify tr, UniSkipFirstRoundProof.isSome_verify tr π⟩

end Answered

/-- A message without coefficients, in a sumcheck of one round, and a
univariate-skip round without coefficients. -/
theorem crashes_on_empty_message :
    (⟨[⟨[]⟩]⟩ : ClearSumcheckProof (ZMod 7)).verify scalarTranscript 0 1 3 [] = .none ∧
      (⟨⟨[]⟩⟩ : UniSkipFirstRoundProof (ZMod 7)).verify scalarTranscript ⟨true, false⟩ 10 28
        ⟨27, 1, fun _ => 0, fun _ => 0, fun _ _ => 0, fun acc _ => acc⟩
        (.prepopulated fun _ => .none) [] = .none :=
  ⟨rfl, rfl⟩

end LightningJolt
