/-
The on-chain verification of a batch of sumchecks
(`onchain-verifier/contracts/BatchedSumcheckVerifier.sol`) against the Rust one, over
transcripts that are equal before it: scaling, batching, challenges and rounds.
-/
import LightningJolt.BatchedSumcheck
import LightningJolt.DenseBinding
import LightningJolt.OnChainSumcheck
import LightningJolt.TranscriptRefinement

namespace LightningJolt

/-! ## The contract -/

/-- `mulPow2`: repeated doubling. -/
def SumcheckVerifier.mulPow2 (value : Word) : Nat → Word
  | 0 => value
  | pow + 1 => SumcheckVerifier.mulPow2 (value.addmod value scalarModulus) pow

namespace BatchedSumcheckVerifier

variable (keccak : Keccak256)

/-- `"sumcheck_claim"`. -/
def sumcheckClaim : List U8 := [115, 117, 109, 99, 104, 101, 99, 107, 95, 99, 108, 97, 105, 109]

/-- The loop over the numbers of rounds. -/
def maxRounds (instanceNumRounds : List Nat) : Nat :=
  instanceNumRounds.foldl (fun maxRounds numRounds => if numRounds > maxRounds then numRounds else maxRounds) 0

def scaledClaim (maxRounds : Nat) (claim : Word) (numRounds : Nat) : Word :=
  let roundDiff := maxRounds - numRounds
  if roundDiff > 0 then SumcheckVerifier.mulPow2 claim roundDiff else claim

/-- The loop over the claims, with their numbers of rounds and their coefficients. -/
def combinedClaim (maxRounds : Nat) (instances : List (Word × Nat)) (batchingCoeffs : List Word) : Word :=
  (instances.zip batchingCoeffs).foldl (fun combined (i, coeff) =>
    combined.addmod ((scaledClaim maxRounds i.1 i.2).mulmod coeff scalarModulus) scalarModulus) 0

/-- `verify`: the final claim, the challenges and the batching coefficients. -/
def verify (compressedPolys : List MemoryArray) (instanceClaims : List Word) (instanceNumRounds : List Nat)
    (maxDegree : Nat) (t : JoltTranscript.Transcript) :
    Option (Word × List Word × List Word × JoltTranscript.Transcript) :=
  let numInstances := instanceClaims.length
  if instanceNumRounds.length = numInstances then
    let maxRounds := maxRounds instanceNumRounds
    if compressedPolys.length = maxRounds then
      let t := instanceClaims.foldl (fun t claim =>
        t.appendLabeledScalar keccak (JoltTranscript.Transcript.bytes32 sumcheckClaim) claim) t
      let (batchingCoeffs, t) := t.challengeVector keccak numInstances
      let combined := combinedClaim maxRounds (instanceClaims.zip instanceNumRounds) batchingCoeffs
      match SumcheckVerifier.verify keccak compressedPolys combined maxRounds maxDegree t with
      | .none => .none
      | .some (finalClaim, challenges, t) => .some (finalClaim, challenges, batchingCoeffs, t)
    else .none
  else .none

end BatchedSumcheckVerifier

/-! ## The Rust verification of the messages -/

/-- A label literal as bytes. -/
def labelBytes (label : String) : List U8 := label.toList.map fun c => BitVec.ofNat 8 c.toNat

/-- The Keccak transcript as the verification uses it, whose labels all fit. -/
def keccakTranscript (keccak : Keccak256) : Transcript KeccakTranscript Fr MontU128Challenge where
  rawAppendLabel t label := (t.rawAppendLabel keccak (labelBytes label)).getD t
  rawAppendLabelWithLen t label len := (t.rawAppendLabelWithLen keccak (labelBytes label) len).getD t
  rawAppendScalar t scalar := t.rawAppendScalar keccak scalar
  challengeScalar t := t.challengeScalar keccak
  challengeScalarOptimized t := t.challengeScalarOptimized keccak

namespace BatchedSumcheck

section Messages

variable {F C T : Type} [JoltField F] [Challenge C F] (tr : Transcript T F C)

/-- What `verify` does with the messages, up to the output claims: the batching coefficients, the
challenges and the output claim. -/
def verifyMessages (maxDegree : Nat) (instances : List (F × Nat)) (proof : ClearSumcheckProof F) (t : T) :
    Option (Except ProofVerifyError (List F × List C × F) × T) := do
  let maxNumRounds ← (instances.map Prod.snd).max?
  let t := instances.foldl (fun t i => tr.appendScalar t "sumcheck_claim" i.1) t
  let (batchingCoeffs, t) := tr.challengeVector t instances.length
  let individualClaims ← instances.mapM fun i => mulPow2 i.1 (maxNumRounds - i.2)
  let claim := combine individualClaims batchingCoeffs
  let (result, t) ← proof.verify tr claim maxNumRounds maxDegree t
  .some (result.map fun (outputClaim, rSumcheck) => (batchingCoeffs, rSumcheck, outputClaim), t)

/-- `verify` and `verify_standard` after the messages. -/
theorem verifyWith_eq_messages [DecidableEq F]
    (start : Nat → List C → SumcheckInstanceVerifier F C → Nat × Nat) (proof : ClearSumcheckProof F)
    (sumcheckInstances : List (SumcheckInstanceVerifier F C)) (acc : VerifierOpeningAccumulator F C) (t : T) :
    verifyWith tr start proof sumcheckInstances acc t = (do
      let maxDegree ← (sumcheckInstances.map (·.degree)).max?
      let maxNumRounds ← (sumcheckInstances.map (·.numRounds)).max?
      match ← verifyMessages tr maxDegree (sumcheckInstances.map fun s => (s.inputClaim acc, s.numRounds)) proof t with
      | (.error e, t) => .some (.error e, acc, t)
      | (.ok (batchingCoeffs, rSumcheck, outputClaim), t) =>
        let (expectedOutputClaim, acc) ← expectAll (start maxNumRounds rSumcheck) rSumcheck
          (sumcheckInstances.zip batchingCoeffs) acc
        let (acc, t) := acc.flushToTranscript tr t
        if outputClaim ≠ expectedOutputClaim then .some (.error .SumcheckVerificationError, acc, t)
        else .some (.ok (batchingCoeffs, rSumcheck), acc, t)) := by
  rw [verifyWith]
  simp only [verifyMessages, List.map_map, List.foldl_map, List.length_map]
  cases hdeg : (sumcheckInstances.map (·.degree)).max? with
  | none => rfl
  | some maxDegree =>
    cases hmax : (sumcheckInstances.map (·.numRounds)).max? with
    | none => rfl
    | some maxNumRounds =>
      have hsnd : (sumcheckInstances.map
          (Prod.snd ∘ fun s => (s.inputClaim acc, s.numRounds))).max? = .some maxNumRounds := hmax
      have hclaims : ((sumcheckInstances.map fun s => (s.inputClaim acc, s.numRounds)).mapM fun i =>
            mulPow2 i.1 (maxNumRounds - i.2)) =
          sumcheckInstances.mapM fun s => mulPow2 (s.inputClaim acc) (maxNumRounds - s.numRounds) := by
        rw [List.mapM_map]
        rfl
      simp only [hsnd, Option.bind_eq_bind, Option.bind_some, hclaims]
      cases sumcheckInstances.mapM fun s => mulPow2 (s.inputClaim acc) (maxNumRounds - s.numRounds) with
      | none => rfl
      | some individualClaims =>
        simp only [Option.bind_some]
        generalize ClearSumcheckProof.verify tr _ _ _ _ _ = answer
        match answer with
        | .none => rfl
        | .some (.error e, t) => rfl
        | .some (.ok (outputClaim, rSumcheck), t) => rfl

end Messages

end BatchedSumcheck

/-! ## The transcripts -/

section Transcripts

variable (keccak : Keccak256) {n : Nat} {r : KeccakTranscript} {s : JoltTranscript.Transcript}

theorem MatchesAt.appendClaim (h : MatchesAt n r s) (hn : n + 2 < 2 ^ 32) (claim : Fr) :
    MatchesAt (n + 2) ((keccakTranscript keccak).appendScalar r "sumcheck_claim" claim)
      (s.appendLabeledScalar keccak (JoltTranscript.Transcript.bytes32 BatchedSumcheckVerifier.sumcheckClaim)
        (frWord claim)) := by
  have hlabel : labelBytes "sumcheck_claim" = BatchedSumcheckVerifier.sumcheckClaim := by decide
  have hlen : BatchedSumcheckVerifier.sumcheckClaim.length ≤ 32 := by decide
  have hhead := h.appendWord keccak (by omega) (@bytes_bytes32 BatchedSumcheckVerifier.sumcheckClaim (by decide))
  have hround := hhead.appendWord keccak hn (bytes_frWord claim)
  simp only [Transcript.appendScalar, keccakTranscript, hlabel, rawAppendLabel_some keccak hlen, Option.getD_some]
  exact hround

theorem MatchesAt.appendClaims (instances : List (Fr × Nat)) (h : MatchesAt n r s)
    (hn : n + 2 * instances.length < 2 ^ 32) :
    MatchesAt (n + 2 * instances.length)
      (instances.foldl (fun t i => (keccakTranscript keccak).appendScalar t "sumcheck_claim" i.1) r)
      ((instances.map fun i => frWord i.1).foldl (fun t claim => t.appendLabeledScalar keccak
        (JoltTranscript.Transcript.bytes32 BatchedSumcheckVerifier.sumcheckClaim) claim) s) := by
  induction instances generalizing n r s with
  | nil => exact h
  | cons i instances ih =>
    rw [List.length_cons] at hn
    have hhead := h.appendClaim keccak (by omega) i.1
    have htail := ih hhead (by omega)
    rw [List.length_cons, show n + 2 * (instances.length + 1) = n + 2 + 2 * instances.length by ring]
    exact htail

theorem challengeVector_keccak (len : Nat) (t : KeccakTranscript) :
    (keccakTranscript keccak).challengeVector t len = t.challengeVector keccak len := by
  induction len generalizing t with
  | zero => rfl
  | succ len ih =>
    rw [Transcript.challengeVector]
    simp only [ih]
    rfl

theorem MatchesAt.challengeVector (h : MatchesAt n r s) (len : Nat) (hn : n + len < 2 ^ 32) :
    (s.challengeVector keccak len).1.map Word.residue = ((keccakTranscript keccak).challengeVector r len).1 ∧
      MatchesAt (n + len) ((keccakTranscript keccak).challengeVector r len).2 (s.challengeVector keccak len).2 := by
  obtain ⟨hout, hround⟩ := h.drawn (f := Word.residue) (g := id) (fun h hn => h.challengeScalar keccak hn) hn
  rw [List.map_id] at hout
  rw [challengeVector_keccak]
  exact ⟨hout, hround⟩

/-- Labelled scalars and the challenge after them. -/
theorem MatchesAt.scalarsChallenge (h : MatchesAt n r s) {label : String} (hlen : (labelBytes label).length ≤ 24)
    (coeffs : List Fr) (hn : n + (coeffs.length + 2) < 2 ^ 32) :
    let r' := (keccakTranscript keccak).appendScalars r label coeffs
    let s' := s.appendLabeledScalars keccak (JoltTranscript.Transcript.bytes24 (labelBytes label)) (coeffs.map frWord)
    (s'.challengeScalarMont keccak).1.residue = ((keccakTranscript keccak).challengeScalarOptimized r').1.into ∧
      MatchesAt (n + (coeffs.length + 2)) ((keccakTranscript keccak).challengeScalarOptimized r').2
        (s'.challengeScalarMont keccak).2 := by
  have hhead := h.appendWord keccak (by omega) (@bytes_packed (labelBytes label) hlen coeffs.length (by omega))
  have hround := hhead.appendScalars keccak coeffs (by omega)
  have hchallenge := hround.challengeScalarMont keccak (by omega)
  rw [show n + 1 + coeffs.length + 1 = n + (coeffs.length + 2) by ring] at hchallenge
  simp only [Transcript.appendScalars, keccakTranscript, rawAppendLabelWithLen_some keccak hlen,
    Option.getD_some, JoltTranscript.Transcript.appendLabeledScalars, List.length_map]
  exact hchallenge

/-- The messages of a round and its challenge. -/
theorem MatchesAt.roundChallenge (h : MatchesAt n r s) (coeffs : List Fr)
    (hn : n + (coeffs.length + 2) < 2 ^ 32) :
    let r' := (keccakTranscript keccak).appendScalars r "sumcheck_poly" coeffs
    let s' := s.appendLabeledScalars keccak (JoltTranscript.Transcript.bytes24 SumcheckVerifier.sumcheckPoly)
      (coeffs.map frWord)
    (s'.challengeScalarMont keccak).1.residue = ((keccakTranscript keccak).challengeScalarOptimized r').1.into ∧
      MatchesAt (n + (coeffs.length + 2)) ((keccakTranscript keccak).challengeScalarOptimized r').2
        (s'.challengeScalarMont keccak).2 := by
  have hlabel : labelBytes "sumcheck_poly" = SumcheckVerifier.sumcheckPoly := by decide
  have hchallenge := h.scalarsChallenge keccak (by rw [hlabel]; decide) coeffs hn
  rw [hlabel] at hchallenge
  exact hchallenge

end Transcripts

/-! ## Canonical words -/

section Canonical

theorem challengeScalar_lt (keccak : Keccak256) (s : JoltTranscript.Transcript) :
    (s.challengeScalar keccak).1.toNat < scalarModulus := by
  have hhigh := high_lt (s.challengeHash keccak).1
  change ((s.challengeHash keccak).1 >>> 128).toNat < scalarModulus
  rw [BitVec.toNat_ushiftRight, Nat.shiftRight_eq_div_pow]
  exact hhigh.trans (by decide)

theorem challengeScalarMont_lt (keccak : Keccak256) (s : JoltTranscript.Transcript) :
    (s.challengeScalarMont keccak).1.toNat < scalarModulus := mulmod_lt _ _

theorem challengeVector_lt (keccak : Keccak256) (len : Nat) (s : JoltTranscript.Transcript) :
    ∀ w ∈ (s.challengeVector keccak len).1, w.toNat < scalarModulus := by
  induction len generalizing s with
  | zero => exact nofun
  | succ len ih => exact List.forall_mem_cons.mpr ⟨challengeScalar_lt keccak s, ih _⟩

theorem map_frWord {ws : List Word} {xs : List Fr} (hlt : ∀ w ∈ ws, w.toNat < scalarModulus)
    (hx : ws.map Word.residue = xs) : ws = xs.map frWord := by
  rw [← hx, List.map_map]
  refine (List.map_id ws).symm.trans (List.map_congr_left ?_)
  intro w hw
  exact eq_frWord (hlt w hw) rfl

theorem residue_map_frWord (xs : List Fr) : (xs.map frWord).map Word.residue = xs := by
  rw [List.map_map]
  exact (List.map_congr_left fun x _ => residue_frWord x).trans (List.map_id xs)

theorem wraps_frWord (xs : List Fr) : SumcheckVerifier.wraps (xs.map frWord) = 0 := by
  rw [SumcheckVerifier.wraps, List.countP_eq_zero]
  intro w hw
  obtain ⟨x, -, rfl⟩ := List.mem_map.mp hw
  rw [frWord_toNat, decide_eq_true_eq, Nat.not_lt]
  exact (ZMod.val_lt x).le

theorem evalLoop_lt (x : Word) (coeffs : List Word) (runPow : Word) {result : Word}
    (h : result.toNat < scalarModulus) :
    (SumcheckVerifier.evalLoop x runPow result coeffs).toNat < scalarModulus := by
  induction coeffs generalizing runPow result with
  | nil => exact h
  | cons c coeffs ih => exact ih _ (addmod_lt _ _)

theorem evalFromHint_lt (coeffs : MemoryArray) (hint x : Word) :
    (SumcheckVerifier.evalFromHint coeffs hint x).toNat < scalarModulus :=
  evalLoop_lt _ _ _ (addmod_lt _ _)

end Canonical

/-! ## The rounds -/

/-- The answers to the rounds: both refuse, or they have the same claim, challenges and transcript,
the words canonical. -/
def RoundsAgree (before : List MontU128Challenge) :
    Option (Except ProofVerifyError (Fr × List MontU128Challenge) × KeccakTranscript) →
      Option (Word × List Word × JoltTranscript.Transcript) → Prop
  | .some (.error _, _), .none => True
  | .some (.ok (claim, rSumcheck), r), .some (finalClaim, challenges, s) =>
    ∃ drawn, rSumcheck = before ++ drawn ∧ challenges = drawn.map (fun c => frWord c.into) ∧
      finalClaim = frWord claim ∧ Matches r s
  | _, _ => False

section Rounds

variable {keccak : Keccak256} {n : Nat} {r : KeccakTranscript} {s : JoltTranscript.Transcript} {degreeBound : Nat}

theorem evalFromHint_into (coeffs : CompressedUniPoly Fr) (hint : Fr) (c : MontU128Challenge) :
    coeffs.evalFromHint hint c = coeffs.evalFromHint hint c.into := by
  obtain ⟨coeffs⟩ := coeffs
  cases coeffs with
  | nil => rfl
  | cons c0 rest => rfl

theorem evalFromHint_frWord {poly : MemoryArray} {coeffs : List Fr} (hpoly : poly.words = coeffs.map frWord)
    (hne : coeffs ≠ []) (e : Fr) (c : MontU128Challenge) :
    ∃ e', (CompressedUniPoly.mk coeffs).evalFromHint e c = .some e' ∧
      SumcheckVerifier.evalFromHint poly (frWord e) (frWord c.into) = frWord e' := by
  have hwords : poly.words ≠ [] := by
    rw [hpoly]
    exact fun hnil => hne (List.map_eq_nil_iff.mp hnil)
  have hhint : (frWord e).residue = e + 2 ^ 256 * 0 := by rw [residue_frWord, mul_zero, add_zero]
  obtain ⟨e', heval, hvalue⟩ := SumcheckVerifier.residue_evalFromHint hwords (frWord e) (frWord c.into) hhint
  have htail : SumcheckVerifier.wraps poly.words.tail = 0 := by rw [hpoly, ← List.map_tail, wraps_frWord]
  rw [hpoly, residue_map_frWord, residue_frWord] at heval
  rw [htail, Nat.cast_zero, add_zero, mul_zero, mul_zero, add_zero] at hvalue
  refine ⟨e', (evalFromHint_into _ e c).trans heval, eq_frWord (evalFromHint_lt _ _ _) hvalue⟩

theorem RoundsAgree.cons {before : List MontU128Challenge} {c : MontU128Challenge}
    {rust : Option (Except ProofVerifyError (Fr × List MontU128Challenge) × KeccakTranscript)}
    {solidity : Option (Word × List Word × JoltTranscript.Transcript)} :
    RoundsAgree (before ++ [c]) rust solidity → RoundsAgree before rust (match solidity with
      | .none => .none
      | .some (finalClaim, challenges, t) => .some (finalClaim, frWord c.into :: challenges, t)) := by
  intro h
  match rust, solidity, h with
  | .some (.error _, _), .none, _ => exact trivial
  | .some (.ok (claim, rSumcheck), r), .some (finalClaim, challenges, s), h =>
    obtain ⟨drawn, hdrawn, hchallenges, hclaim, hmatches⟩ := h
    refine ⟨c :: drawn, ?_, ?_, hclaim, hmatches⟩
    · rw [hdrawn, List.append_assoc]
      rfl
    · rw [hchallenges]
      rfl

/-- The rounds agree: by induction on the messages, whose hashes the two counters have room for. -/
theorem verifyRounds_agree {coeffs : List (List Fr)} {polys : List MemoryArray}
    (hpolys : polys.map (·.words) = coeffs.map (·.map frWord)) (hne : ∀ c ∈ coeffs, c ≠ [])
    (h : MatchesAt n r s) (hn : n + (coeffs.map fun c => c.length + 2).sum < 2 ^ 32) (e : Fr)
    (before : List MontU128Challenge) :
    RoundsAgree before
      (ClearSumcheckProof.verifyRounds (keccakTranscript keccak) degreeBound (coeffs.map .mk) e before r)
      (SumcheckVerifier.verifyRounds keccak degreeBound (frWord e) s polys) := by
  induction coeffs generalizing n r s e before polys with
  | nil =>
    obtain rfl : polys = [] := List.map_eq_nil_iff.mp hpolys
    exact ⟨[], (List.append_nil before).symm, rfl, rfl, h.matches⟩
  | cons c coeffs ih =>
    cases polys with
    | nil => cases hpolys
    | cons poly polys =>
      obtain ⟨hhead, htail⟩ := List.cons.inj hpolys
      have hhead : poly.words = c.map frWord := hhead
      obtain ⟨hc, hrest⟩ := List.forall_mem_cons.mp hne
      rw [List.map_cons, List.sum_cons] at hn
      rw [List.map_cons, ClearSumcheckProof.verifyRounds, SumcheckVerifier.verifyRounds, hhead, List.length_map]
      by_cases hlen : c.length ≤ degreeBound
      · have hdegree : ¬ (CompressedUniPoly.mk c).degree > degreeBound := Nat.not_lt.mpr hlen
        obtain ⟨hchallenge, hround⟩ := h.roundChallenge keccak c (by omega)
        have hword := eq_frWord (challengeScalarMont_lt keccak _) hchallenge
        obtain ⟨e', heval, hvalue⟩ := evalFromHint_frWord hhead hc e
          ((keccakTranscript keccak).challengeScalarOptimized
            ((keccakTranscript keccak).appendScalars r "sumcheck_poly" c)).1
        have hnext := ih htail hrest hround (by omega) e' (before ++ [((keccakTranscript keccak).challengeScalarOptimized
          ((keccakTranscript keccak).appendScalars r "sumcheck_poly" c)).1])
        rw [if_neg hdegree, if_pos hlen]
        simp only [heval]
        rw [hword, hvalue]
        exact RoundsAgree.cons hnext
      · have hdegree : (CompressedUniPoly.mk c).degree > degreeBound := Nat.lt_of_not_le hlen
        rw [if_pos hdegree, if_neg hlen]
        exact trivial

end Rounds

/-! ## Scaling and batching -/

section Scaling

theorem residue_mulPow2 (value : Word) (pow : Nat) :
    (SumcheckVerifier.mulPow2 value pow).residue = value.residue * 2 ^ pow := by
  induction pow generalizing value with
  | zero => rw [SumcheckVerifier.mulPow2, pow_zero, mul_one]
  | succ pow ih =>
    rw [SumcheckVerifier.mulPow2, ih, SumcheckVerifier.residue_addmod, pow_succ]
    ring

theorem residue_scaledClaim (maxRounds : Nat) (claim : Word) (numRounds : Nat) :
    (BatchedSumcheckVerifier.scaledClaim maxRounds claim numRounds).residue =
      claim.residue * 2 ^ (maxRounds - numRounds) := by
  rw [BatchedSumcheckVerifier.scaledClaim]
  by_cases hdiff : maxRounds - numRounds > 0
  · simp only [if_pos hdiff, residue_mulPow2]
  · simp only [if_neg hdiff]
    rw [Nat.eq_zero_of_not_pos hdiff, pow_zero, mul_one]

/-- The sum over the instances of the claims, each times its power of two and its coefficient. -/
def scaledSum (maxNumRounds : Nat) (instances : List (Fr × Nat)) (batchingCoeffs : List Fr) : Fr :=
  ((instances.zip batchingCoeffs).map fun (i, coeff) => i.1 * 2 ^ (maxNumRounds - i.2) * coeff).sum

theorem combinedClaim_eq (maxNumRounds : Nat) (instances : List (Fr × Nat)) (batchingCoeffs : List Word) :
    BatchedSumcheckVerifier.combinedClaim maxNumRounds (instances.map fun i => (frWord i.1, i.2)) batchingCoeffs =
      frWord (scaledSum maxNumRounds instances (batchingCoeffs.map Word.residue)) := by
  have hfold : ∀ (xs : List ((Fr × Nat) × Word)) (acc : Word), acc.toNat < scalarModulus →
      ((xs.map fun x => ((frWord x.1.1, x.1.2), x.2)).foldl (fun combined (i, coeff) => combined.addmod
        ((BatchedSumcheckVerifier.scaledClaim maxNumRounds i.1 i.2).mulmod coeff scalarModulus) scalarModulus) acc) =
        frWord (acc.residue + (xs.map fun x => x.1.1 * 2 ^ (maxNumRounds - x.1.2) * x.2.residue).sum) := by
    intro xs
    induction xs with
    | nil =>
      intro acc hacc
      exact eq_frWord hacc (add_zero _).symm
    | cons x xs ih =>
      intro acc hacc
      rw [List.map_cons, List.foldl_cons, ih _ (addmod_lt _ _), SumcheckVerifier.residue_addmod, residue_mulmod,
        residue_scaledClaim, residue_frWord, List.map_cons, List.sum_cons, add_assoc]
  have hrun := hfold (instances.zip batchingCoeffs) 0 (by decide)
  rw [BatchedSumcheckVerifier.combinedClaim, List.zip_map_left, scaledSum, List.zip_map_right, List.map_map]
  refine Eq.trans hrun ?_
  rw [show (0 : Word).residue = 0 from Nat.cast_zero, zero_add]
  rfl

theorem combine_eq (maxNumRounds : Nat) (instances : List (Fr × Nat)) (batchingCoeffs : List Fr) :
    BatchedSumcheck.combine (instances.map fun i => i.1 * 2 ^ (maxNumRounds - i.2)) batchingCoeffs =
      scaledSum maxNumRounds instances batchingCoeffs := by
  rw [BatchedSumcheck.combine, scaledSum, List.zip_map_left, List.map_map]
  rfl

theorem mapM_mulPow2 {maxNumRounds : Nat} {instances : List (Fr × Nat)}
    (h : ∀ i ∈ instances, maxNumRounds ≤ i.2 + 255) :
    (instances.mapM fun i => mulPow2 i.1 (maxNumRounds - i.2)) =
      .some (instances.map fun i => i.1 * 2 ^ (maxNumRounds - i.2)) := by
  refine mapM_of_some ?_
  intro i hi
  have hle := h i hi
  exact mulPow2_eq (by omega)

theorem max_maxRounds {numRounds : List Nat} (hne : numRounds ≠ []) :
    numRounds.max? = .some (BatchedSumcheckVerifier.maxRounds numRounds) := by
  have hmax : (fun maxRounds numRounds : Nat => if numRounds > maxRounds then numRounds else maxRounds) = max := by
    funext a b
    by_cases h : b > a
    · rw [if_pos h, max_eq_right h.le]
    · rw [if_neg h, max_eq_left (Nat.le_of_not_lt h)]
  cases numRounds with
  | nil => exact absurd rfl hne
  | cons k numRounds =>
    rw [BatchedSumcheckVerifier.maxRounds, hmax, List.foldl_cons, List.max?_cons', Nat.zero_max]

end Scaling

/-! ## The whole verification -/

/-- The answers to the messages: both refuse, or they have the same batching coefficients,
challenges, final claim and transcript, the words canonical. -/
def AnswersAgree :
    Option (Except ProofVerifyError (List Fr × List MontU128Challenge × Fr) × KeccakTranscript) →
      Option (Word × List Word × List Word × JoltTranscript.Transcript) → Prop
  | .some (.error _, _), .none => True
  | .some (.ok (coeffs, rSumcheck, claim), r), .some (finalClaim, challenges, batchingCoeffs, s) =>
    batchingCoeffs = coeffs.map frWord ∧ challenges = rSumcheck.map (fun c => frWord c.into) ∧
      finalClaim = frWord claim ∧ Matches r s
  | _, _ => False

section Batched

variable {r : KeccakTranscript} {s : JoltTranscript.Transcript} {instances : List (Fr × Nat)}
  {coeffs : List (List Fr)} {polys : List MemoryArray} {degreeBound : Nat}

/-- The batching coefficients beside what the rounds answer. -/
theorem RoundsAgree.answers {batchingCoeffs : List Fr}
    {rust : Option (Except ProofVerifyError (Fr × List MontU128Challenge) × KeccakTranscript)}
    {solidity : Option (Word × List Word × JoltTranscript.Transcript)} :
    RoundsAgree [] rust solidity →
      AnswersAgree
        (rust.bind fun (result, t) => .some (result.map fun (claim, r) => (batchingCoeffs, r, claim), t))
        (match solidity with
          | .none => .none
          | .some (finalClaim, challenges, t) => .some (finalClaim, challenges, batchingCoeffs.map frWord, t)) := by
  intro h
  match rust, solidity, h with
  | .some (.error _, _), .none, _ => exact trivial
  | .some (.ok (claim, rSumcheck), r), .some (finalClaim, challenges, s), h =>
    obtain ⟨drawn, hdrawn, hchallenges, hclaim, hmatches⟩ := h
    rw [List.nil_append] at hdrawn
    exact ⟨rfl, hdrawn ▸ hchallenges, hclaim, hmatches⟩

/-- The checks on the number of messages, and the rounds. -/
theorem verify_agrees (keccak : Keccak256) (degreeBound : Nat) {n : Nat} (hpolys : polys.map (·.words) = coeffs.map (·.map frWord))
    (hne : ∀ c ∈ coeffs, c ≠ []) (h : MatchesAt n r s)
    (hn : n + (coeffs.map fun c => c.length + 2).sum < 2 ^ 32) (e : Fr) (numRounds : Nat) :
    RoundsAgree []
      (ClearSumcheckProof.verify (keccakTranscript keccak) ⟨coeffs.map .mk⟩ e numRounds degreeBound r)
      (SumcheckVerifier.verify keccak polys (frWord e) numRounds degreeBound s) := by
  have hlen : polys.length = coeffs.length := by simpa using congrArg List.length hpolys
  rw [ClearSumcheckProof.verify, SumcheckVerifier.verify, List.length_map, hlen]
  by_cases hcount : coeffs.length = numRounds
  · rw [if_neg (not_not.mpr hcount), if_pos hcount]
    exact verifyRounds_agree hpolys hne h hn e []
  · rw [if_pos hcount, if_neg hcount]
    exact trivial

/-- **The on-chain batched verification answers as the Rust one** where the powers of two stay within
what `mul_pow_2` takes and the counter of the Rust transcript does not wrap; and it scales each
claim by two to the rounds its instance lacks. -/
theorem batched_verify_agrees (keccak : Keccak256) (hinstances : instances ≠ [])
    (hscale : ∀ i ∈ instances, BatchedSumcheckVerifier.maxRounds (instances.map Prod.snd) ≤ i.2 + 255)
    (hpolys : polys.map (·.words) = coeffs.map (·.map frWord)) (hne : ∀ c ∈ coeffs, c ≠ []) (h : Matches r s)
    (hn : r.nRounds.toNat + 3 * instances.length + (coeffs.map fun c => c.length + 2).sum < 2 ^ 32) :
    AnswersAgree
        (BatchedSumcheck.verifyMessages (keccakTranscript keccak) degreeBound instances ⟨coeffs.map .mk⟩ r)
        (BatchedSumcheckVerifier.verify keccak polys (instances.map fun i => frWord i.1)
          (instances.map Prod.snd) degreeBound s) ∧
      ∀ batchingCoeffs : List Fr,
        BatchedSumcheckVerifier.combinedClaim (BatchedSumcheckVerifier.maxRounds (instances.map Prod.snd))
            ((instances.map fun i => frWord i.1).zip (instances.map Prod.snd)) (batchingCoeffs.map frWord) =
          frWord (((instances.zip batchingCoeffs).map fun (i, coeff) =>
            i.1 * 2 ^ (BatchedSumcheckVerifier.maxRounds (instances.map Prod.snd) - i.2) * coeff).sum) := by
  have hmax := max_maxRounds (show instances.map Prod.snd ≠ [] from fun hnil => hinstances (List.map_eq_nil_iff.mp hnil))
  have hzip : (instances.map fun i => frWord i.1).zip (instances.map Prod.snd) =
      instances.map fun i => (frWord i.1, i.2) := List.zip_map' ..
  have hclaims := h.at.appendClaims keccak instances (by omega)
  obtain ⟨hdrawn, hstart⟩ := hclaims.challengeVector keccak instances.length (by omega)
  have hcoeffs := map_frWord (challengeVector_lt keccak _ _) hdrawn
  constructor
  · have hrounds := verify_agrees keccak degreeBound hpolys hne hstart (by omega)
      (scaledSum (BatchedSumcheckVerifier.maxRounds (instances.map Prod.snd)) instances
        ((keccakTranscript keccak).challengeVector (instances.foldl (fun t i =>
          (keccakTranscript keccak).appendScalar t "sumcheck_claim" i.1) r) instances.length).1)
      (BatchedSumcheckVerifier.maxRounds (instances.map Prod.snd))
    rw [BatchedSumcheck.verifyMessages, BatchedSumcheckVerifier.verify]
    simp only [hmax, Option.bind_eq_bind, Option.bind_some, mapM_mulPow2 hscale, combine_eq, List.length_map,
      ite_true, hzip, hcoeffs, combinedClaim_eq, residue_map_frWord]
    by_cases hcount : polys.length = BatchedSumcheckVerifier.maxRounds (instances.map Prod.snd)
    · rw [if_pos hcount]
      exact RoundsAgree.answers hrounds
    · rw [SumcheckVerifier.verify, if_neg hcount] at hrounds
      rw [if_neg hcount]
      exact RoundsAgree.answers hrounds
  · intro batchingCoeffs
    rw [hzip, combinedClaim_eq, residue_map_frWord]
    rfl

/-- Two instances, the second a round shorter than the first. -/
theorem batched_verify_agrees_two :
    AnswersAgree
        (BatchedSumcheck.verifyMessages (keccakTranscript fun bytes => BitVec.ofNat 256 (ofBe bytes)) 2
          [(3, 1), (5, 0)] ⟨[⟨[1, 2]⟩]⟩ ⟨List.replicate 32 0, 0⟩)
        (BatchedSumcheckVerifier.verify (fun bytes => BitVec.ofNat 256 (ofBe bytes)) [⟨[frWord 1, frWord 2], 0⟩]
          [frWord 3, frWord 5] [1, 0] 2 ⟨0, 0⟩) :=
  (@batched_verify_agrees ⟨List.replicate 32 0, 0⟩ ⟨0, 0⟩ [(3, 1), (5, 0)] [[1, 2]]
    [⟨[frWord 1, frWord 2], 0⟩] 2 (fun bytes => BitVec.ofNat 256 (ofBe bytes)) (by simp) (by decide) rfl
    (by simp) ⟨by decide, by decide⟩ (by decide)).1

theorem verifyRounds_isSome (keccak : Keccak256) (degreeBound : Nat) (polys : List MemoryArray)
    (h : ∀ poly ∈ polys, poly.words.length ≤ degreeBound) (e : Word) (t : JoltTranscript.Transcript) :
    (SumcheckVerifier.verifyRounds keccak degreeBound e t polys).isSome := by
  induction polys generalizing e t with
  | nil => rfl
  | cons poly polys ih =>
    obtain ⟨hhead, hrest⟩ := List.forall_mem_cons.mp h
    obtain ⟨answer, hanswer⟩ := Option.isSome_iff_exists.mp (ih hrest
      (SumcheckVerifier.evalFromHint poly e ((t.appendLabeledScalars keccak
        (JoltTranscript.Transcript.bytes24 SumcheckVerifier.sumcheckPoly) poly.words).challengeScalarMont keccak).1)
      ((t.appendLabeledScalars keccak (JoltTranscript.Transcript.bytes24 SumcheckVerifier.sumcheckPoly)
        poly.words).challengeScalarMont keccak).2)
    rw [SumcheckVerifier.verifyRounds, if_pos hhead]
    simp only [hanswer, Option.isSome_some]

/-- The contract answers whenever the messages are as many as the rounds and short enough. -/
theorem BatchedSumcheckVerifier.isSome_verify {keccak : Keccak256} {claims : List Word} {numRounds : List Nat}
    (hlen : numRounds.length = claims.length) (hcount : polys.length = maxRounds numRounds)
    (h : ∀ poly ∈ polys, poly.words.length ≤ degreeBound) (t : JoltTranscript.Transcript) :
    (verify keccak polys claims numRounds degreeBound t).isSome := by
  have hrounds := verifyRounds_isSome keccak degreeBound polys h
  rw [verify]
  simp only [if_pos hlen, if_pos hcount, SumcheckVerifier.verify]
  split
  · rename_i hnone
    have hsome := hrounds (combinedClaim (maxRounds numRounds) (claims.zip numRounds)
      ((claims.foldl (fun t claim => t.appendLabeledScalar keccak
        (JoltTranscript.Transcript.bytes32 sumcheckClaim) claim) t).challengeVector keccak claims.length).1)
      ((claims.foldl (fun t claim => t.appendLabeledScalar keccak
        (JoltTranscript.Transcript.bytes32 sumcheckClaim) claim) t).challengeVector keccak claims.length).2
    rw [hnone] at hsome
    cases hsome
  · rfl

/-- An instance 256 rounds shorter than another makes `mul_pow_2` panic, while the contract answers;
and a transcript at the last count of a `u32` leaves the two at different counts. -/
theorem batched_verify_diverges :
    (BatchedSumcheck.verifyMessages (keccakTranscript fun _ => 0) 1 [(0, 256), (0, 0)]
          ⟨List.replicate 256 ⟨[0]⟩⟩ ⟨List.replicate 32 0, 0⟩ = .none ∧
        (BatchedSumcheckVerifier.verify (fun _ => 0) (List.replicate 256 ⟨[0], 0⟩) [0, 0] [256, 0] 1 ⟨0, 0⟩).isSome) ∧
      Matches ⟨List.replicate 32 0, -1⟩ ⟨0, 0xFFFFFFFF⟩ ∧
      ¬ AnswersAgree
        (BatchedSumcheck.verifyMessages (keccakTranscript fun _ => 0) 1 [(0, 0)] ⟨[]⟩ ⟨List.replicate 32 0, -1⟩)
        (BatchedSumcheckVerifier.verify (fun _ => 0) [] [0] [0] 1 ⟨0, 0xFFFFFFFF⟩) := by
  refine ⟨⟨rfl, ?_⟩, ⟨by decide, by decide⟩, ?_⟩
  · have hcount : BatchedSumcheckVerifier.maxRounds [256, 0] = 256 := by decide
    refine BatchedSumcheckVerifier.isSome_verify rfl (List.length_replicate.trans hcount.symm) ?_ _
    intro poly hpoly
    rw [List.eq_of_mem_replicate hpoly]
    decide
  · intro h
    obtain ⟨-, -, -, hmatches⟩ := h
    have hcount := hmatches.nRounds
    rw [challengeBytes_nRounds] at hcount
    revert hcount
    decide

end Batched

end LightningJolt
