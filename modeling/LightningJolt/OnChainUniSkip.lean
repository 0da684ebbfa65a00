/-
The contract's univariate-skip rounds and its Lagrange routines, beside the
Rust verification of the first round and the basis of the window: which
polynomials both accept, and with which claim the remaining rounds begin.
-/
import LightningJolt.OnChainBatched
import LightningJolt.OnChainR1cs
import LightningJolt.UniskipFirstRound

namespace LightningJolt

open Finset LagrangePolynomial SumcheckVerifier

/-! ## The contract -/

namespace UniSkipVerifier

variable (keccak : Keccak256)

def outerNumCoeffs : Nat := 28

def productNumCoeffs : Nat := 7

/-- `"uniskip_poly"`. -/
def uniskipPoly : List U8 := [117, 110, 105, 115, 107, 105, 112, 95, 112, 111, 108, 121]

/-- `_evaluateUniPoly`, from the last coefficient on. -/
def evaluateUniPoly (coeffs : List Word) (x : Word) : Word :=
  match coeffs.reverse with
  | [] => 0
  | last :: rest => rest.foldl (fun result c => (result.mulmod x scalarModulus).addmod c scalarModulus) last

/-- `_evaluateUniPolyAtInt`, at a small integer. -/
def evaluateUniPolyAtInt (coeffs : List Word) (point : Int) : Word :=
  evaluateUniPoly coeffs
    (if 0 ≤ point then BitVec.ofNat 256 point.toNat else SumcheckVerifier.subFromR (BitVec.ofNat 256 (-point).toNat))

/-- `_computeOuterDomainSum`. -/
def computeOuterDomainSum (coeffs : List Word) : Word :=
  ([-4, -3, -2, -1, 0, 1, 2, 3, 4, 5] : List Int).foldl
    (fun sum t => sum.addmod (evaluateUniPolyAtInt coeffs t) scalarModulus) 0

/-- `_computeProductDomainSum`. -/
def computeProductDomainSum (coeffs : List Word) : Word :=
  ((evaluateUniPolyAtInt coeffs (-1)).addmod (evaluateUniPolyAtInt coeffs 0) scalarModulus).addmod
    (evaluateUniPolyAtInt coeffs 1) scalarModulus

/-- `verifyOuterUniSkip`: the challenge and the claim. -/
def verifyOuterUniSkip (t : JoltTranscript.Transcript) (uniPolyCoeffs : List Word) : Option (Word × Word) :=
  if uniPolyCoeffs.length ≤ outerNumCoeffs then
    let t := t.appendLabeledScalars keccak (JoltTranscript.Transcript.bytes24 uniskipPoly) uniPolyCoeffs
    let (r0, _) := t.challengeScalarMont keccak
    if computeOuterDomainSum uniPolyCoeffs = 0 then .some (r0, evaluateUniPoly uniPolyCoeffs r0) else .none
  else .none

/-- `verifyProductUniSkip`. -/
def verifyProductUniSkip (t : JoltTranscript.Transcript) (uniPolyCoeffs : List Word) (inputClaim : Word) :
    Option (Word × Word) :=
  if uniPolyCoeffs.length ≤ productNumCoeffs then
    let t := t.appendLabeledScalars keccak (JoltTranscript.Transcript.bytes24 uniskipPoly) uniPolyCoeffs
    let (r0, _) := t.challengeScalarMont keccak
    if computeProductDomainSum uniPolyCoeffs = inputClaim then .some (r0, evaluateUniPoly uniPolyCoeffs r0)
    else .none
  else .none

def lagrangeEvals3 (x : Word) : List Word :=
  let inv2 : Word := BitVec.ofNat 256 ((scalarModulus + 1) / 2)
  let xSq := x.mulmod x scalarModulus
  [(x.mulmod (x.addmod (BitVec.ofNat 256 (scalarModulus - 1)) scalarModulus) scalarModulus).mulmod inv2 scalarModulus,
    Word.addmod 1 (SumcheckVerifier.subFromR xSq) scalarModulus,
    (x.mulmod (x.addmod 1 scalarModulus) scalarModulus).mulmod inv2 scalarModulus]

/-- The sum of the products of the weights, as both kernels take it. -/
def kernelSum (wTau wR : List Word) : Word :=
  (wTau.zip wR).foldl (fun result w => result.addmod (w.1.mulmod w.2 scalarModulus) scalarModulus) 0

def lagrangeKernel3 (tau r : Word) : Word := kernelSum (lagrangeEvals3 tau) (lagrangeEvals3 r)

/-- `_lagrangeKernel10`, of the stages. -/
def lagrangeKernel10 (tau r : Word) : Option Word := do
  let wTau ← R1CSEvaluator.lagrangeWeights10 tau
  let wR ← R1CSEvaluator.lagrangeWeights10 r
  .some (kernelSum wTau wR)

end UniSkipVerifier

/-! ## The first round in Rust -/

section Rust

variable (keccak : Keccak256)

/-- The instances `OuterUniSkip` and `ProductVirtualUniSkip` of the verifier, over their input
claim: the challenge is the point of the one opening they cache. -/
def uniSkipInstance (sumcheck : SumcheckId) (degreeBound : Nat) (inputClaim : Fr) :
    SumcheckInstanceVerifier Fr MontU128Challenge where
  degree := degreeBound
  numRounds := 1
  roundOffset := fun maxNumRounds => maxNumRounds - 1
  inputClaim := fun _ => inputClaim
  -- `unimplemented!`: the first round has no output claim
  expectedOutputClaim := fun _ _ => 0
  cacheOpenings := fun acc challenges =>
    (acc.appendVirtual .UnivariateSkip sumcheck challenges).getD acc

/-- The first round as stages 1 and 2 run it in a release build, with the claims of the proof: the
challenge, and the input claim of the remaining rounds, which is the opening cached at it. -/
def verifyUniSkip (sumcheck : SumcheckId) (windowN numCoeffs : Nat) (openingClaims : Openings Fr MontU128Challenge)
    (uniPoly : UniPoly Fr) (inputClaim : Fr) (t : KeccakTranscript) :
    Option (Except ProofVerifyError (MontU128Challenge × Fr)) := do
  let (result, acc, _) ← UniSkipFirstRoundProof.verify (keccakTranscript keccak) ⟨false, false⟩ windowN numCoeffs
    ⟨uniPoly⟩ (uniSkipInstance sumcheck (numCoeffs - 1) inputClaim) (.prepopulated openingClaims) t
  match result with
  | .error e => .some (.error e)
  | .ok r0 => do
    let (_, uniSkipClaim) ← acc.openings (.virt .UnivariateSkip sumcheck)
    .some (.ok (r0, uniSkipClaim))

/-- The challenge of the first round. -/
def uniSkipChallenge (t : KeccakTranscript) (coeffs : List Fr) : MontU128Challenge :=
  ((keccakTranscript keccak).challengeScalarOptimized
    ((keccakTranscript keccak).appendScalars t "uniskip_poly" coeffs)).1

/-- The claim that the proof has for the opening, or the placeholder. -/
def carriedClaim (openingClaims : Openings Fr MontU128Challenge) (sumcheck : SumcheckId) : Fr :=
  ((openingClaims (.virt .UnivariateSkip sumcheck)).map Prod.snd).getD 0

end Rust

/-- The contract reverts where the Rust verifier rejects, and returns its challenge and claim. -/
def UniSkipAgrees : Option (Except ProofVerifyError (MontU128Challenge × Fr)) → Option (Word × Word) → Prop
  | .some (.ok (c, claim)), .some (r0, e) => r0 = frWord c.into ∧ e = frWord claim
  | .some (.error _), .none => True
  | _, _ => False

/-- The sum over the window. -/
def windowSum (n : Nat) (coeffs : List Fr) : Fr := ∑ i ∈ range n, horner (node Fr n i) coeffs

/-! ## Evaluations -/

namespace UniSkipVerifier

theorem foldl_horner (x : Word) (cs : List Word) (acc : Word) :
    (cs.foldl (fun result c => (result.mulmod x scalarModulus).addmod c scalarModulus) acc).residue =
      cs.foldl (fun (result : Fr) c => result * x.residue + c.residue) acc.residue := by
  induction cs generalizing acc with
  | nil => rfl
  | cons c cs ih => rw [List.foldl_cons, ih, residue_addmod, residue_mulmod, List.foldl_cons]

/-- The evaluation is Horner's. -/
theorem residue_evaluateUniPoly (coeffs : List Word) (x : Word) :
    (evaluateUniPoly coeffs x).residue = horner x.residue (coeffs.map Word.residue) := by
  have hfold : horner x.residue (coeffs.map Word.residue) =
      coeffs.reverse.foldl (fun (result : Fr) c => result * x.residue + c.residue) 0 := by
    rw [horner, List.foldr_map, ← List.foldl_reverse]
    congr 1
    funext a c
    ring
  rw [hfold, evaluateUniPoly]
  cases coeffs.reverse with
  | nil => rfl
  | cons last rest =>
    rw [List.foldl_cons, zero_mul, zero_add]
    exact foldl_horner x rest last

theorem foldl_horner_lt (x : Word) (cs : List Word) {acc : Word} (h : acc.toNat < scalarModulus) :
    (cs.foldl (fun result c => (result.mulmod x scalarModulus).addmod c scalarModulus) acc).toNat <
      scalarModulus := by
  induction cs generalizing acc with
  | nil => exact h
  | cons c cs ih => exact ih (addmod_lt ..)

theorem evaluateUniPoly_lt {coeffs : List Word} (h : ∀ c ∈ coeffs, c.toNat < scalarModulus) (x : Word) :
    (evaluateUniPoly coeffs x).toNat < scalarModulus := by
  rw [evaluateUniPoly]
  cases hrev : coeffs.reverse with
  | nil => show (0 : Nat) < _; decide
  | cons last rest =>
    refine foldl_horner_lt x rest (h last ?_)
    rw [← List.mem_reverse, hrev]
    exact List.mem_cons_self ..

/-- On canonical coefficients the value is the canonical one. -/
theorem evaluateUniPoly_frWord (coeffs : List Fr) (x : Word) :
    evaluateUniPoly (coeffs.map frWord) x = frWord (horner x.residue coeffs) := by
  refine eq_frWord (evaluateUniPoly_lt (fun c hc => ?_) x) ?_
  · obtain ⟨y, -, rfl⟩ := List.mem_map.mp hc
    rw [frWord_toNat]
    exact ZMod.val_lt y
  · rw [residue_evaluateUniPoly, residue_map_frWord]

theorem residue_point {point : Int} (h : -4 ≤ point) (h' : point ≤ 5) :
    Word.residue (if 0 ≤ point then BitVec.ofNat 256 point.toNat
      else subFromR (BitVec.ofNat 256 (-point).toNat)) = (point : Fr) := by
  interval_cases point <;> decide

theorem evaluateUniPolyAtInt_frWord (coeffs : List Fr) {point : Int} (h : -4 ≤ point) (h' : point ≤ 5) :
    evaluateUniPolyAtInt (coeffs.map frWord) point = frWord (horner (point : Fr) coeffs) := by
  rw [evaluateUniPolyAtInt, evaluateUniPoly_frWord, residue_point h h']

theorem addmod_frWord (x y : Fr) : (frWord x).addmod (frWord y) scalarModulus = frWord (x + y) :=
  eq_frWord (addmod_lt ..) (by rw [residue_addmod, residue_frWord, residue_frWord])

theorem mulmod_frWord (x y : Fr) : (frWord x).mulmod (frWord y) scalarModulus = frWord (x * y) :=
  eq_frWord (mulmod_lt ..) (by rw [residue_mulmod, residue_frWord, residue_frWord])

theorem computeOuterDomainSum_frWord (coeffs : List Fr) :
    computeOuterDomainSum (coeffs.map frWord) = frWord (windowSum 10 coeffs) := by
  have hzero : (0 : Word) = frWord 0 := by decide
  rw [computeOuterDomainSum, hzero]
  simp (disch := decide) only [List.foldl_cons, List.foldl_nil, evaluateUniPolyAtInt_frWord, addmod_frWord]
  rw [windowSum]
  simp only [sum_range_succ, range_zero, sum_empty, node, start]
  norm_num

theorem computeProductDomainSum_frWord (coeffs : List Fr) :
    computeProductDomainSum (coeffs.map frWord) = frWord (windowSum 3 coeffs) := by
  rw [computeProductDomainSum]
  simp (disch := decide) only [evaluateUniPolyAtInt_frWord, addmod_frWord]
  rw [windowSum]
  simp only [sum_range_succ, range_zero, sum_empty, node, start]
  norm_num

theorem frWord_inj {x y : Fr} : frWord x = frWord y ↔ x = y := by
  constructor
  · intro h
    rw [← residue_frWord x, h, residue_frWord]
  · intro h
    rw [h]

/-! ## The basis of the windows -/

theorem kernelSum_frWord (us ws : List Fr) :
    kernelSum (us.map frWord) (ws.map frWord) = frWord (combine us ws) := by
  have hfold : ∀ (l : List (Fr × Fr)) (acc : Fr),
      (l.map fun p => (frWord p.1, frWord p.2)).foldl
        (fun result w => result.addmod (w.1.mulmod w.2 scalarModulus) scalarModulus) (frWord acc) =
        frWord (acc + (l.map fun p => p.1 * p.2).sum) := by
    intro l
    induction l with
    | nil =>
      intro acc
      simp
    | cons p l ih =>
      intro acc
      rw [List.map_cons, List.foldl_cons, mulmod_frWord, addmod_frWord, ih, List.map_cons, List.sum_cons, add_assoc]
  have hzip : (us.map frWord).zip (ws.map frWord) = (us.zip ws).map fun p => (frWord p.1, frWord p.2) :=
    List.zip_map ..
  have hzero : (0 : Word) = frWord 0 := by decide
  rw [kernelSum, hzip, hzero, hfold, zero_add, combine, List.zip, List.map_zipWith]

/-- The weights of the nodes `-1`, `0` and `1`. -/
theorem weights_three (x : Fr) : weights 3 x = [x * (x - 1) * 2⁻¹, 1 - x * x, x * (x + 1) * 2⁻¹] := by
  have hrow : denRow 3 = [2, -1, 2] := by decide
  have hstart : start 3 = -1 := by decide
  rw [weights, hrow, distances, hstart]
  simp only [distancesFrom, otherProducts, List.zipWith_cons_cons, List.zipWith_nil_left, List.map_cons,
    List.map_nil, List.prod_cons, List.prod_nil, Int.cast_neg, Int.cast_one, Int.cast_ofNat, sub_neg_eq_add]
  congr 1
  · ring
  · congr 1
    · rw [inv_neg, inv_one]
      ring
    · congr 1
      ring

theorem lagrangeEvals3_frWord (x : Fr) : lagrangeEvals3 (frWord x) = (weights 3 x).map frWord := by
  have hhalf : BitVec.ofNat 256 ((scalarModulus + 1) / 2) = frWord 2⁻¹ := by
    refine eq_frWord (by decide) ?_
    have htwo : (2 : Fr) ≠ 0 := by decide
    have h : Word.residue (BitVec.ofNat 256 ((scalarModulus + 1) / 2)) * 2 = 1 := by decide
    exact eq_inv_of_mul_eq_one_left h
  have hone : (1 : Word) = frWord 1 := by decide
  have hminus : BitVec.ofNat 256 (scalarModulus - 1) = frWord (-1) := by decide
  have hsub : ∀ y : Fr, Word.addmod (frWord 1) (subFromR (frWord y)) scalarModulus = frWord (1 - y) := by
    intro y
    refine eq_frWord (addmod_lt ..) ?_
    rw [residue_addmod, residue_subFromR, residue_frWord, residue_frWord, frWord_toNat,
      if_neg (Nat.not_lt.mpr (ZMod.val_lt y).le)]
    ring
  rw [lagrangeEvals3, hhalf, hminus, hone, weights_three]
  simp only [mulmod_frWord, addmod_frWord, hsub, List.map_cons, List.map_nil, ← sub_eq_add_neg]

theorem lagrangeWeights10_frWord (x : Fr) :
    R1CSEvaluator.lagrangeWeights10 (frWord x) = .some ((weights 10 x).map frWord) := by
  obtain ⟨ws, hws, hevals⟩ := R1CSEvaluator.lagrangeWeights10_eq x
  rw [evals_eq_weights (by decide) (smallsInvertible_fr (by decide)), Option.some.injEq] at hevals
  have hlt : ∀ w ∈ ws, w.toNat < scalarModulus := by
    rw [R1CSEvaluator.lagrangeWeights10] at hws
    simp only [Option.bind_eq_bind, Option.bind_eq_some_iff, Option.some.injEq] at hws
    obtain ⟨diff, -, rfl⟩ := hws
    intro w hw
    obtain ⟨i, hi, rfl⟩ := List.mem_iff_getElem.mp hw
    rw [List.getElem_zipWith]
    exact mulmod_lt ..
  refine hws.trans ?_
  rw [Option.some.injEq, map_frWord hlt hevals.symm]

end UniSkipVerifier

/-! ## The Rust verification, as one case distinction -/

section Verification

variable {keccak : Keccak256}

theorem openings_indexOpeningId {F C : Type} (acc : VerifierOpeningAccumulator F C) (key : OpeningId) :
    (acc.indexOpeningId key).openings = acc.openings := by
  unfold VerifierOpeningAccumulator.indexOpeningId
  split
  · rfl
  · split
    · rfl
    · rfl

/-- The claim cached at the challenge is the one the proof carries, whatever it is. -/
theorem cached_claim (openingClaims : Openings Fr MontU128Challenge) (sumcheck : SumcheckId) (r0 : MontU128Challenge) :
    ∃ acc, (VerifierOpeningAccumulator.prepopulated openingClaims).appendVirtual .UnivariateSkip sumcheck [r0] =
        .some acc ∧
      acc.openings (.virt .UnivariateSkip sumcheck) = .some ([r0], carriedClaim openingClaims sumcheck) := by
  rw [VerifierOpeningAccumulator.appendVirtual, VerifierOpeningAccumulator.populateOrAliasOpening, carriedClaim]
  have hnone : (VerifierOpeningAccumulator.prepopulated openingClaims).findExistingOpeningAtPoint
      (underlyingPolynomialId (.virt .UnivariateSkip sumcheck)) [r0] = .some .none := rfl
  rw [hnone]
  cases hclaim : openingClaims (.virt .UnivariateSkip sumcheck) with
  | none =>
    simp only [VerifierOpeningAccumulator.prepopulated, hclaim, Option.map_none]
    refine ⟨_, rfl, ?_⟩
    rw [VerifierOpeningAccumulator.placeOpening, openings_indexOpeningId]
    exact insertEntry_self ..
  | some opening =>
    simp only [VerifierOpeningAccumulator.prepopulated, hclaim, Option.map_some]
    refine ⟨_, rfl, ?_⟩
    rw [VerifierOpeningAccumulator.placeOpening, openings_indexOpeningId]
    exact insertEntry_self ..

/-- An empty polynomial is rejected for its degree, which wraps; a polynomial that is too long too;
another one exactly for a wrong sum. -/
theorem verifyUniSkip_eq {n : Nat} (hpos : 1 ≤ n) (hn : n ≤ 15) (sumcheck : SumcheckId)
    (openingClaims : Openings Fr MontU128Challenge) {coeffs : List Fr} (inputClaim : Fr) (t : KeccakTranscript) :
    let result := verifyUniSkip keccak sumcheck n (3 * (n - 1) + 1) openingClaims ⟨coeffs⟩ inputClaim t
    (coeffs = [] ∨ 3 * (n - 1) + 1 < coeffs.length → ∃ e, result = .some (.error e)) ∧
    (coeffs ≠ [] → coeffs.length ≤ 3 * (n - 1) + 1 → windowSum n coeffs ≠ inputClaim →
      ∃ e, result = .some (.error e)) ∧
    (coeffs ≠ [] → coeffs.length ≤ 3 * (n - 1) + 1 → windowSum n coeffs = inputClaim →
      result = .some (.ok (uniSkipChallenge keccak t coeffs, carriedClaim openingClaims sumcheck))) := by
  intro result
  have hdegree : ∀ h : coeffs ≠ [], (⟨coeffs⟩ : UniPoly Fr).degree ⟨false, false⟩ = .some (coeffs.length - 1) := by
    intro h
    rw [UniPoly.degree, BuildProfile.subUsize, if_pos (Nat.succ_le_of_lt (List.length_pos_iff.mpr h))]
  have hcheck (hlen : coeffs.length ≤ 3 * (n - 1) + 1) : (⟨coeffs⟩ : UniPoly Fr).checkSumEvals ⟨false, false⟩ n
      (3 * (n - 1) + 1) inputClaim = .some (decide (windowSum n coeffs = inputClaim)) := by
    rw [UniPoly.checkSumEvals, powerSums_eq hpos hn]
    simp only [Bool.false_eq_true, if_false, Option.bind_eq_bind, Option.bind_some, checkSumLoop_powerSums hlen]
    rfl
  refine ⟨?_, ?_, ?_⟩
  · rintro (rfl | hlong)
    · have hwraps : (⟨[]⟩ : UniPoly Fr).degree ⟨false, false⟩ = .some (2 ^ 64 - 1) := rfl
      have hbound : 2 ^ 64 - 1 > 3 * (n - 1) + 1 - 1 := by omega
      refine ⟨.InvalidInputLength (3 * (n - 1) + 1 - 1) (2 ^ 64 - 1), ?_⟩
      simp only [result, verifyUniSkip, UniSkipFirstRoundProof.verify, hwraps, uniSkipInstance, hbound, if_true,
        Option.bind_eq_bind, Option.bind_some]
    · have hne : coeffs ≠ [] := List.ne_nil_of_length_pos (by omega)
      have hbound : coeffs.length - 1 > 3 * (n - 1) + 1 - 1 := by omega
      refine ⟨.InvalidInputLength (3 * (n - 1) + 1 - 1) (coeffs.length - 1), ?_⟩
      simp only [result, verifyUniSkip, UniSkipFirstRoundProof.verify, hdegree hne, uniSkipInstance, hbound, if_true,
        Option.bind_eq_bind, Option.bind_some]
  · intro hne hlen hsum
    have hbound : ¬ coeffs.length - 1 > 3 * (n - 1) + 1 - 1 := by omega
    refine ⟨.UniSkipVerificationError, ?_⟩
    simp only [result, verifyUniSkip, UniSkipFirstRoundProof.verify, hdegree hne, uniSkipInstance, if_neg hbound,
      hcheck hlen, decide_eq_false hsum, Option.bind_eq_bind, Option.bind_some, Bool.not_false, if_true]
  · intro hne hlen hsum
    have hbound : ¬ coeffs.length - 1 > 3 * (n - 1) + 1 - 1 := by omega
    obtain ⟨acc, hacc, hclaim⟩ := cached_claim openingClaims sumcheck (uniSkipChallenge keccak t coeffs)
    simp only [uniSkipChallenge] at hacc
    simp only [result, verifyUniSkip, UniSkipFirstRoundProof.verify, hdegree hne, uniSkipInstance, if_neg hbound,
      hcheck hlen, decide_eq_true hsum, Option.bind_eq_bind, Option.bind_some, Bool.not_true, Bool.false_eq_true,
      if_false, hacc, Option.getD_some, VerifierOpeningAccumulator.flushToTranscript, hclaim]
    rfl

end Verification

/-! ## The agreement -/

/-- Both reject, or the claim the proof carries is the polynomial's value at the challenge: an empty
polynomial, which Rust rejects, is the zero polynomial on chain. -/
def SameUniSkip (n numCoeffs : Nat) (inputClaim carried r0 : Fr) (coeffs : List Fr) : Prop :=
  (coeffs = [] → inputClaim ≠ 0) ∧
    (coeffs ≠ [] → coeffs.length ≤ numCoeffs → windowSum n coeffs = inputClaim → carried = horner r0 coeffs)

section Agreement

variable {keccak : Keccak256} {count : Nat} {r : KeccakTranscript} {s : JoltTranscript.Transcript}

/-- The contract's challenge is the canonical word of the Rust one. -/
theorem uniSkipChallenge_eq (h : MatchesAt count r s) (coeffs : List Fr) (hn : count + (coeffs.length + 2) < 2 ^ 32) :
    ((s.appendLabeledScalars keccak (JoltTranscript.Transcript.bytes24 UniSkipVerifier.uniskipPoly)
      (coeffs.map frWord)).challengeScalarMont keccak).1 = frWord (uniSkipChallenge keccak r coeffs).into := by
  have hlabel : labelBytes "uniskip_poly" = UniSkipVerifier.uniskipPoly := by decide
  have hchallenge := @MatchesAt.scalarsChallenge keccak count r s h "uniskip_poly" (by rw [hlabel]; decide) coeffs hn
  rw [hlabel] at hchallenge
  exact eq_frWord (challengeScalarMont_lt keccak _) hchallenge.1

theorem windowSum_nil (n : Nat) : windowSum n [] = 0 := by simp [windowSum, horner]

/-- The agreement of a round of either window, from what its contract function computes. -/
theorem uniSkipAgrees_iff (h : MatchesAt count r s) (hcount : count + 30 < 2 ^ 32) {n : Nat} (hpos : 1 ≤ n)
    (hn : n ≤ 10) (sumcheck : SumcheckId) (openingClaims : Openings Fr MontU128Challenge) (coeffs : List Fr)
    (inputClaim : Fr) {onChain : Option (Word × Word)}
    (honChain : onChain = if coeffs.length ≤ 3 * (n - 1) + 1 then
      let r0 := ((s.appendLabeledScalars keccak (JoltTranscript.Transcript.bytes24 UniSkipVerifier.uniskipPoly)
        (coeffs.map frWord)).challengeScalarMont keccak).1
      if windowSum n coeffs = inputClaim then .some (r0, UniSkipVerifier.evaluateUniPoly (coeffs.map frWord) r0)
      else .none
    else .none) :
    UniSkipAgrees (verifyUniSkip keccak sumcheck n (3 * (n - 1) + 1) openingClaims ⟨coeffs⟩ inputClaim r) onChain ↔
      SameUniSkip n (3 * (n - 1) + 1) inputClaim (carriedClaim openingClaims sumcheck)
        (uniSkipChallenge keccak r coeffs).into coeffs := by
  obtain ⟨hrejected, hwrong, haccepted⟩ :=
    @verifyUniSkip_eq keccak n hpos (by omega) sumcheck openingClaims coeffs inputClaim r
  by_cases hlen : coeffs.length ≤ 3 * (n - 1) + 1
  · have hchallenge := @uniSkipChallenge_eq keccak count r s h coeffs (by omega)
    rw [if_pos hlen, hchallenge] at honChain
    simp only [UniSkipVerifier.evaluateUniPoly_frWord, residue_frWord] at honChain
    by_cases hempty : coeffs = []
    · obtain ⟨e, he⟩ := hrejected (.inl hempty)
      rw [he, honChain]
      subst hempty
      simp only [windowSum_nil, SameUniSkip, ne_eq, not_true_eq_false, false_implies, and_true, true_implies]
      by_cases hzero : (0 : Fr) = inputClaim
      · rw [if_pos hzero]
        exact ⟨fun hfalse => hfalse.elim, fun hne => hne hzero.symm⟩
      · rw [if_neg hzero]
        exact ⟨fun _ heq => hzero heq.symm, fun _ => True.intro⟩
    · by_cases hsum : windowSum n coeffs = inputClaim
      · rw [haccepted hempty hlen hsum, honChain, if_pos hsum]
        simp only [UniSkipAgrees, true_and, UniSkipVerifier.frWord_inj]
        exact ⟨fun heq => ⟨fun hnil => absurd hnil hempty, fun _ _ _ => heq.symm⟩,
          fun hsame => (hsame.2 hempty hlen hsum).symm⟩
      · obtain ⟨e, he⟩ := hwrong hempty hlen hsum
        rw [he, honChain, if_neg hsum]
        exact ⟨fun _ => ⟨fun hnil => absurd hnil hempty, fun _ _ heq => absurd heq hsum⟩, fun _ => True.intro⟩
  · obtain ⟨e, he⟩ := hrejected (.inr (Nat.lt_of_not_le hlen))
    have hempty : coeffs ≠ [] := by
      rintro rfl
      exact hlen (Nat.zero_le _)
    rw [he, honChain, if_neg hlen]
    exact ⟨fun _ => ⟨fun hnil => absurd hnil hempty, fun _ hle => absurd hle hlen⟩, fun _ => True.intro⟩

theorem outerAgrees_iff (h : MatchesAt count r s) (hcount : count + 30 < 2 ^ 32)
    (openingClaims : Openings Fr MontU128Challenge) (coeffs : List Fr) :
    UniSkipAgrees (verifyUniSkip keccak .SpartanOuter 10 28 openingClaims ⟨coeffs⟩ 0 r)
        (UniSkipVerifier.verifyOuterUniSkip keccak s (coeffs.map frWord)) ↔
      SameUniSkip 10 28 0 (carriedClaim openingClaims .SpartanOuter) (uniSkipChallenge keccak r coeffs).into coeffs := by
  have hzero : (0 : Word) = frWord 0 := by decide
  refine uniSkipAgrees_iff h hcount (by decide) (by decide) .SpartanOuter openingClaims coeffs 0 ?_
  rw [UniSkipVerifier.verifyOuterUniSkip, UniSkipVerifier.outerNumCoeffs, List.length_map,
    UniSkipVerifier.computeOuterDomainSum_frWord, hzero]
  simp only [UniSkipVerifier.frWord_inj]

theorem productAgrees_iff (h : MatchesAt count r s) (hcount : count + 30 < 2 ^ 32)
    (openingClaims : Openings Fr MontU128Challenge) (coeffs : List Fr) (inputClaim : Fr) :
    UniSkipAgrees (verifyUniSkip keccak .SpartanProductVirtualization 3 7 openingClaims ⟨coeffs⟩ inputClaim r)
        (UniSkipVerifier.verifyProductUniSkip keccak s (coeffs.map frWord) (frWord inputClaim)) ↔
      SameUniSkip 3 7 inputClaim (carriedClaim openingClaims .SpartanProductVirtualization)
        (uniSkipChallenge keccak r coeffs).into coeffs := by
  refine uniSkipAgrees_iff h hcount (by decide) (by decide) .SpartanProductVirtualization openingClaims coeffs
    inputClaim ?_
  rw [UniSkipVerifier.verifyProductUniSkip, UniSkipVerifier.productNumCoeffs, List.length_map,
    UniSkipVerifier.computeProductDomainSum_frWord]
  simp only [UniSkipVerifier.frWord_inj]

/-- The contract's weights and kernels of both windows are those of the Rust basis, at a node too. -/
theorem lagrange_agrees (x y : Fr) :
    (∃ ws, evals 10 x = .some ws ∧ R1CSEvaluator.lagrangeWeights10 (frWord x) = .some (ws.map frWord)) ∧
      (∃ ws, evals 3 x = .some ws ∧ UniSkipVerifier.lagrangeEvals3 (frWord x) = ws.map frWord) ∧
      (∃ k, lagrangeKernel 10 x y = .some k ∧
        UniSkipVerifier.lagrangeKernel10 (frWord x) (frWord y) = .some (frWord k)) ∧
      ∃ k, lagrangeKernel 3 x y = .some k ∧ UniSkipVerifier.lagrangeKernel3 (frWord x) (frWord y) = frWord k := by
  have hten : SmallsInvertible Fr 10 := smallsInvertible_fr (by decide)
  have hthree : SmallsInvertible Fr 3 := smallsInvertible_fr (by decide)
  refine ⟨⟨_, evals_eq_weights (by decide) hten x, UniSkipVerifier.lagrangeWeights10_frWord x⟩,
    ⟨_, evals_eq_weights (by decide) hthree x, UniSkipVerifier.lagrangeEvals3_frWord x⟩,
    ⟨_, lagrangeKernel_eq (by decide) hten x y, ?_⟩, ⟨_, lagrangeKernel_eq (by decide) hthree x y, ?_⟩⟩
  · simp only [UniSkipVerifier.lagrangeKernel10, UniSkipVerifier.lagrangeWeights10_frWord, Option.bind_eq_bind,
      Option.bind_some, UniSkipVerifier.kernelSum_frWord]
  · rw [UniSkipVerifier.lagrangeKernel3, UniSkipVerifier.lagrangeEvals3_frWord, UniSkipVerifier.lagrangeEvals3_frWord,
      UniSkipVerifier.kernelSum_frWord]

/-- **The univariate-skip rounds on chain** are those of the Rust verifier exactly when the polynomial
is not empty, or its input claim not zero, and the claim that the proof carries for the opening at the
challenge, which Rust takes over unchecked, is the polynomial's value there. The weights and kernels of
both windows are those of the Rust basis at every point. -/
theorem uniSkip_agrees_iff (h : MatchesAt count r s) (hcount : count + 30 < 2 ^ 32)
    (openingClaims : Openings Fr MontU128Challenge) (coeffs : List Fr) (inputClaim : Fr) :
    (UniSkipAgrees (verifyUniSkip keccak .SpartanOuter 10 28 openingClaims ⟨coeffs⟩ 0 r)
        (UniSkipVerifier.verifyOuterUniSkip keccak s (coeffs.map frWord)) ↔
      SameUniSkip 10 28 0 (carriedClaim openingClaims .SpartanOuter) (uniSkipChallenge keccak r coeffs).into coeffs) ∧
    (UniSkipAgrees (verifyUniSkip keccak .SpartanProductVirtualization 3 7 openingClaims ⟨coeffs⟩ inputClaim r)
        (UniSkipVerifier.verifyProductUniSkip keccak s (coeffs.map frWord) (frWord inputClaim)) ↔
      SameUniSkip 3 7 inputClaim (carriedClaim openingClaims .SpartanProductVirtualization)
        (uniSkipChallenge keccak r coeffs).into coeffs) ∧
    ∀ x y : Fr, (∃ ws, evals 10 x = .some ws ∧ R1CSEvaluator.lagrangeWeights10 (frWord x) = .some (ws.map frWord)) ∧
      (∃ ws, evals 3 x = .some ws ∧ UniSkipVerifier.lagrangeEvals3 (frWord x) = ws.map frWord) ∧
      (∃ k, lagrangeKernel 10 x y = .some k ∧
        UniSkipVerifier.lagrangeKernel10 (frWord x) (frWord y) = .some (frWord k)) ∧
      ∃ k, lagrangeKernel 3 x y = .some k ∧ UniSkipVerifier.lagrangeKernel3 (frWord x) (frWord y) = frWord k :=
  ⟨outerAgrees_iff h hcount openingClaims coeffs, productAgrees_iff h hcount openingClaims coeffs inputClaim,
    lagrange_agrees⟩

/-- A product round of `2 + 3X + 5X²`, which sums to sixteen over the window, in a proof that carries
its value at the challenge. -/
theorem uniSkip_agrees_quadratic :
    let keccak : Keccak256 := fun bytes => BitVec.ofNat 256 (ofBe bytes * 2 ^ 190 + 3 ^ 100)
    let r : KeccakTranscript := ⟨beBytes 32 5, 4⟩
    let coeffs : List Fr := [2, 3, 5]
    let value := horner (uniSkipChallenge keccak r coeffs).into coeffs
    let onChain := UniSkipVerifier.verifyProductUniSkip keccak ⟨5, 4⟩ (coeffs.map frWord) (frWord 16)
    onChain.isSome ∧ value ≠ 0 ∧ UniSkipAgrees
      (verifyUniSkip keccak .SpartanProductVirtualization 3 7 (fun _ => .some ([], value)) ⟨coeffs⟩ 16 r) onChain := by
  intro keccak r coeffs value onChain
  refine ⟨by decide, by decide +kernel, ?_⟩
  exact (@uniSkip_agrees_iff keccak 4 r ⟨5, 4⟩ ⟨by decide, by decide, by decide⟩ (by decide)
    (fun _ => .some ([], value)) coeffs 16).2.1.mpr ⟨fun h => absurd h (by decide), fun _ _ _ => rfl⟩

/-- The empty polynomial is rejected in Rust and accepted on chain; the zero polynomial, with the claim one
for its value, leaves the two with different claims. -/
theorem uniSkip_diverges :
    ¬ UniSkipAgrees
        (verifyUniSkip (fun _ => 0) .SpartanOuter 10 28 (fun _ => .some ([], 0)) ⟨[]⟩ 0 ⟨List.replicate 32 0, 0⟩)
        (UniSkipVerifier.verifyOuterUniSkip (fun _ => 0) ⟨0, 0⟩ ([].map frWord)) ∧
      ¬ UniSkipAgrees
        (verifyUniSkip (fun _ => 0) .SpartanOuter 10 28 (fun _ => .some ([], 1)) ⟨[0]⟩ 0 ⟨List.replicate 32 0, 0⟩)
        (UniSkipVerifier.verifyOuterUniSkip (fun _ => 0) ⟨0, 0⟩ ([0].map frWord)) := by
  have hmatches : MatchesAt 0 ⟨List.replicate 32 0, 0⟩ ⟨0, 0⟩ := ⟨by decide, by decide, by decide⟩
  constructor
  · intro h
    exact ((outerAgrees_iff hmatches (by decide) _ []).mp h).1 rfl rfl
  · intro h
    have hvalue := ((outerAgrees_iff hmatches (by decide) _ [0]).mp h).2 (by decide) (by decide)
      (by simp [windowSum, horner])
    simp [carriedClaim, horner] at hvalue

end Agreement

end LightningJolt
