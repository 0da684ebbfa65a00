/-
A proof of a batch is accepted by its verifier: the rounds keep the running
claim of the verifier equal to the combination of the instances' claims, and
the dummy rounds of an instance take back the scaling of its input claim.
-/
import LightningJolt.BatchedSumcheck

namespace LightningJolt

namespace BatchedSumcheck

variable {S F C T : Type} [JoltField F] [Challenge C F] {tr : Transcript T F C}

/-! ## Combinations of polynomials -/

omit [Challenge C F] in
@[simp] theorem length_addScaled (acc cs : List F) (k : F) :
    (addScaled acc cs k).length = acc.length := by
  induction acc generalizing cs with
  | nil => rfl
  | cons a acc ih => cases cs <;> simp [addScaled, ih]

theorem horner_addScaled (x k : F) {acc cs : List F} (h : cs.length ≤ acc.length) :
    horner x (addScaled acc cs k) = horner x acc + horner x cs * k := by
  induction acc generalizing cs with
  | nil =>
    cases cs with
    | nil => simp [addScaled, horner]
    | cons c cs => simp at h
  | cons a acc ih =>
    cases cs with
    | nil => simp [addScaled, horner]
    | cons c cs =>
      have hrest := @ih cs (by simpa using h)
      simp only [horner] at hrest
      simp only [addScaled, horner, List.foldr_cons, hrest]
      ring

theorem combine_cons (c k : F) (cs ks : List F) :
    combine (c :: cs) (k :: ks) = c * k + combine cs ks := by simp [combine]

/-- The buffer of a round after the polynomials, at a point. -/
theorem horner_foldl_addScaled (x : F) (polys : List (UniPoly F)) (coeffs acc : List F)
    (h : ∀ p ∈ polys, p.coeffs.length ≤ acc.length) :
    horner x ((polys.zip coeffs).foldl (fun acc (p, k) => addScaled acc p.coeffs k) acc) =
      horner x acc + combine (polys.map fun p => horner x p.coeffs) coeffs := by
  induction polys generalizing coeffs acc with
  | nil => simp [combine]
  | cons p polys ih =>
    cases coeffs with
    | nil => simp [combine]
    | cons k coeffs =>
      simp only [List.zip_cons_cons, List.foldl_cons, List.map_cons, combine_cons]
      rw [ih coeffs _ fun q hq => by simpa using h q (by simp [hq]),
        horner_addScaled x k (h p (by simp))]
      ring

theorem length_foldl_addScaled (polys : List (UniPoly F)) (coeffs acc : List F) :
    ((polys.zip coeffs).foldl (fun acc (p, k) => addScaled acc p.coeffs k) acc).length =
      acc.length := by
  generalize polys.zip coeffs = entries
  induction entries generalizing acc with
  | nil => rfl
  | cons entry entries ih => rw [List.foldl_cons, ih, length_addScaled]

theorem horner_replicate_zero (x : F) (n : Nat) : horner x (List.replicate n 0) = 0 := by
  induction n with
  | zero => rfl
  | succ n ih =>
    simp only [horner] at ih
    simp [List.replicate_succ, horner, ih]

/-- The batched polynomial takes the combination of the values. -/
theorem horner_batchPolys (x : F) (polys : List (UniPoly F)) (coeffs : List F) :
    horner x (batchPolys polys coeffs).coeffs =
      combine (polys.map fun p => horner x p.coeffs) coeffs := by
  have hlen : ∀ p ∈ polys, p.coeffs.length ≤
      (List.replicate (((polys.map fun p => p.coeffs.length).max?).getD 0) (0 : F)).length := by
    intro p hp
    rw [List.length_replicate]
    exact List.le_max?_getD_of_mem (List.mem_map_of_mem hp)
  rw [batchPolys, horner_foldl_addScaled x polys coeffs _ hlen, horner_replicate_zero, zero_add]

theorem length_batchPolys (polys : List (UniPoly F)) (coeffs : List F) :
    (batchPolys polys coeffs).coeffs.length =
      ((polys.map fun p => p.coeffs.length).max?).getD 0 := by
  rw [batchPolys, length_foldl_addScaled, List.length_replicate]

theorem combine_add (xs ys ks : List F) (h : xs.length = ys.length) :
    combine xs ks + combine ys ks = combine (xs.zipWith (· + ·) ys) ks := by
  induction xs generalizing ys ks with
  | nil => cases ys <;> simp_all [combine]
  | cons x xs ih =>
    cases ys with
    | nil => simp at h
    | cons y ys =>
      cases ks with
      | nil => simp [combine]
      | cons k ks =>
        simp only [List.zipWith_cons_cons, combine_cons, ← ih ys ks (by simpa using h)]
        ring

/-- The batched polynomial sums to the combination of the sums. -/
theorem sumOverBit_batchPolys (polys : List (UniPoly F)) (coeffs : List F) :
    (batchPolys polys coeffs).sumOverBit = combine (polys.map UniPoly.sumOverBit) coeffs := by
  unfold UniPoly.sumOverBit
  rw [horner_batchPolys, horner_batchPolys, combine_add _ _ _ (by simp)]
  congr 1
  simp [List.zipWith_map_left, List.zipWith_map_right, List.zipWith_self]

/-! ## One round -/

/-- What a message has to be: not empty, within the degree, and summing to the
claim before it. -/
structure Sums (maxDegree : Nat) (poly : UniPoly F) (claim : F) : Prop where
  nonempty : poly.coeffs ≠ []
  degree : poly.coeffs.length ≤ maxDegree + 1
  sum : poly.sumOverBit = claim

/-- A round in which every active instance's message sums to its claim. -/
def SumsRound (maxDegree maxNumRounds round : Nat) (running : Running S F C) : Prop :=
  ∀ q ∈ running, active q.1 maxNumRounds round →
    Sums maxDegree (roundMessage maxNumRounds round q.1 q.2).1 q.2

/-- A round with a message of two coefficients or more, without which there is no
linear term to leave out. -/
def CompressesRound (maxNumRounds round : Nat) (running : Running S F C) : Prop :=
  ∃ q ∈ running, 2 ≤ (roundMessage maxNumRounds round q.1 q.2).1.coeffs.length

omit [Challenge C F] in
/-- The message of a dummy round is the constant that halves the claim. -/
theorem sums_of_not_active {maxDegree maxNumRounds round : Nat}
    {q : SumcheckInstanceProver S F C × F} (h : ¬ active q.1 maxNumRounds round) :
    Sums maxDegree (roundMessage maxNumRounds round q.1 q.2).1 q.2 := by
  have htwo := JoltField.two_ne_zero (F := F)
  refine ⟨by simp [roundMessage, h], by simp [roundMessage, h], ?_⟩
  simp only [roundMessage, h, Bool.false_eq_true, ite_false, UniPoly.sumOverBit, horner,
    List.foldr_cons, List.foldr_nil, mul_zero, add_zero]
  field_simp
  ring

omit [Challenge C F] in
theorem sums_all {maxDegree maxNumRounds round : Nat} {running : Running S F C}
    (h : SumsRound maxDegree maxNumRounds round running) :
    ∀ q ∈ running, Sums maxDegree (roundMessage maxNumRounds round q.1 q.2).1 q.2 := by
  intro q hq
  by_cases hactive : active q.1 maxNumRounds round
  · exact h q hq hactive
  · exact sums_of_not_active hactive

/-- An instance and its claim after the challenge of a round. -/
def nextPair (maxNumRounds round : Nat) (q : SumcheckInstanceProver S F C × F) (rJ : C) :
    SumcheckInstanceProver S F C × F :=
  let m := roundMessage maxNumRounds round q.1 q.2
  (ingest maxNumRounds round m.2 rJ, horner (Challenge.into rJ) m.1.coeffs)

theorem nextRunning_eq {maxNumRounds round : Nat} {running : Running S F C}
    (h : ∀ q ∈ running, (roundMessage maxNumRounds round q.1 q.2).1.coeffs ≠ []) (rJ : C) :
    nextRunning maxNumRounds round running rJ =
      .some (running.map fun q => nextPair maxNumRounds round q rJ) := by
  unfold nextRunning messages
  induction running with
  | nil => rfl
  | cons q running ih =>
    simp only [List.map_cons, List.mapM_cons]
    rw [ih fun q hq => h q (by simp [hq]), UniPoly.evaluate_eq (h q (by simp))]
    rfl

/-- **One round**: the batched message compresses, and from the combination of
the claims it takes the verifier to the combination of the next claims. -/
theorem round_agrees {maxDegree maxNumRounds round : Nat} {running : Running S F C}
    (coeffs : List F) (hsums : SumsRound maxDegree maxNumRounds round running)
    (hcompress : CompressesRound maxNumRounds round running) :
    ∃ compressed, (batchPolys ((messages maxNumRounds round running).map Prod.fst) coeffs).compress =
        .some compressed ∧ compressed.degree ≤ maxDegree ∧
      ∀ rJ : C, compressed.evalFromHint (combine (running.map Prod.snd) coeffs) rJ =
        .some (combine ((running.map fun q => nextPair maxNumRounds round q rJ).map Prod.snd)
          coeffs) := by
  have hall := sums_all hsums
  set polys := (messages maxNumRounds round running).map Prod.fst with hpolys
  have hmem : ∀ p ∈ polys, p.coeffs.length ≤ maxDegree + 1 := by
    intro p hp
    simp only [hpolys, messages, List.map_map, List.mem_map, Function.comp] at hp
    obtain ⟨q, hq, rfl⟩ := hp
    exact (hall q hq).degree
  have hsum : (batchPolys polys coeffs).sumOverBit = combine (running.map Prod.snd) coeffs := by
    rw [sumOverBit_batchPolys]
    congr 1
    simp only [hpolys, messages, List.map_map]
    exact List.map_congr_left fun q hq => (hall q hq).sum
  have hlow : 2 ≤ (batchPolys polys coeffs).coeffs.length := by
    obtain ⟨q, hq, htwo⟩ := hcompress
    rw [length_batchPolys]
    refine le_trans htwo (List.le_max?_getD_of_mem ?_)
    simp only [hpolys, messages, List.map_map, List.mem_map, Function.comp]
    exact ⟨q, hq, rfl⟩
  have hhigh : (batchPolys polys coeffs).coeffs.length ≤ maxDegree + 1 := by
    rw [length_batchPolys]
    cases hmax : (polys.map fun p => p.coeffs.length).max? with
    | none => simp
    | some d =>
      obtain ⟨p, hp, rfl⟩ := List.mem_map.mp (List.max?_mem hmax)
      exact hmem p hp
  -- the batched polynomial has a linear term to leave out
  obtain ⟨c, l, rest, hcoeffs⟩ : ∃ c l rest, (batchPolys polys coeffs).coeffs = c :: l :: rest := by
    match hc : (batchPolys polys coeffs).coeffs with
    | [] => simp [hc] at hlow
    | [c] => simp [hc] at hlow
    | c :: l :: rest => exact ⟨c, l, rest, rfl⟩
  have hcomp : (batchPolys polys coeffs).compress = .some ⟨c :: rest⟩ := by
    simp [UniPoly.compress, hcoeffs]
  refine ⟨_, hcomp, ?_, fun rJ => ?_⟩
  · rw [hcoeffs] at hhigh
    simpa [CompressedUniPoly.degree] using hhigh
  · rw [← hsum, CompressedUniPoly.evalFromHint_compress hcomp,
      UniPoly.evaluate_eq (by simp [hcoeffs]), horner_batchPolys]
    simp only [hpolys, messages, List.map_map]
    rfl

/-! ## The rounds -/

/-- An instance and its claim after the challenges of several rounds. -/
def pairAfter (maxNumRounds : Nat) :
    Nat → SumcheckInstanceProver S F C × F → List C → SumcheckInstanceProver S F C × F
  | _, q, [] => q
  | round, q, r :: rs => pairAfter maxNumRounds (round + 1) (nextPair maxNumRounds round q r) rs

/-- **The rounds**: the prover's run, and the verifier's over the messages it
emits, which sees the same challenges and ends with the combination of the
claims the instances end with. -/
theorem rounds_agree {maxDegree maxNumRounds n round : Nat} {coeffs : List F}
    {s : Rounds S T F C}
    (hsums : ∀ rs : List C, rs.length < n → SumsRound maxDegree maxNumRounds (round + rs.length)
      (s.running.map fun q => pairAfter maxNumRounds round q rs))
    (hcompress : ∀ rs : List C, rs.length < n → CompressesRound maxNumRounds (round + rs.length)
      (s.running.map fun q => pairAfter maxNumRounds round q rs)) :
    ∃ rs ps t, rs.length = n ∧ ps.length = n ∧
      proveRounds tr maxNumRounds coeffs n round s =
        .some ⟨s.running.map fun q => pairAfter maxNumRounds round q rs, s.rSumcheck ++ rs,
          s.compressedPolys ++ ps, t⟩ ∧
      ∀ r0 : List C, ClearSumcheckProof.verifyRounds tr maxDegree ps
          (combine (s.running.map Prod.snd) coeffs) r0 s.transcript =
        .some (.ok (combine ((s.running.map fun q => pairAfter maxNumRounds round q rs).map Prod.snd)
          coeffs, r0 ++ rs), t) := by
  induction n generalizing round s with
  | zero =>
    exact ⟨[], [], s.transcript, rfl, rfl, by simp [proveRounds, pairAfter],
      fun r0 => by simp [ClearSumcheckProof.verifyRounds, pairAfter]⟩
  | succ n ih =>
    have hsums0 := hsums [] (by simp)
    have hcompress0 := hcompress [] (by simp)
    simp only [List.length_nil, Nat.add_zero, pairAfter, List.map_id'] at hsums0 hcompress0
    obtain ⟨compressed, hcomp, hdegree, hnext⟩ := round_agrees coeffs hsums0 hcompress0
    -- the challenge of this round, and the state it leaves
    obtain ⟨rJ, t1, hchallenge⟩ : ∃ rJ t1, tr.challengeScalarOptimized (tr.appendScalars s.transcript
        "sumcheck_poly" compressed.coeffsExceptLinearTerm) = (rJ, t1) := ⟨_, _, rfl⟩
    have hrun := nextRunning_eq
      (fun q hq => (sums_all hsums0 q hq).nonempty) rJ
    obtain ⟨rs, ps, t, hrs, hps, hprove, hverify⟩ := @ih (round + 1)
      ⟨s.running.map fun q => nextPair maxNumRounds round q rJ, s.rSumcheck ++ [rJ],
        s.compressedPolys ++ [compressed], t1⟩
      (fun rs hrs => by
        have h := hsums (rJ :: rs) (by simpa using hrs)
        simpa [pairAfter, Nat.add_assoc, Nat.add_comm 1, Function.comp_def] using h)
      (fun rs hrs => by
        have h := hcompress (rJ :: rs) (by simpa using hrs)
        simpa [pairAfter, Nat.add_assoc, Nat.add_comm 1, Function.comp_def] using h)
    refine ⟨rJ :: rs, compressed :: ps, t, by simp [hrs], by simp [hps], ?_, fun r0 => ?_⟩
    · simp only [proveRounds, hcomp, Option.bind_eq_bind, Option.bind_some, hchallenge, hrun, hprove]
      simp [pairAfter, Function.comp_def]
    · have hle : ¬ compressed.degree > maxDegree := by omega
      simp only [ClearSumcheckProof.verifyRounds, hle, ite_false, hchallenge, hnext, hverify]
      simp [pairAfter, Function.comp_def]

/-! ## One instance over the rounds -/

/-- A round of an instance on its own. -/
def localStep (round : Nat) (q : SumcheckInstanceProver S F C × F) (rJ : C) :
    SumcheckInstanceProver S F C × F :=
  let m := q.1.computeMessage q.1.state round q.2
  ({ q.1 with state := q.1.ingestChallenge m.2 rJ round }, horner (Challenge.into rJ) m.1.coeffs)

/-- The rounds of an instance on its own. -/
def localRun : Nat → SumcheckInstanceProver S F C × F → List C → SumcheckInstanceProver S F C × F
  | _, q, [] => q
  | round, q, r :: rs => localRun (round + 1) (localStep round q r) rs

theorem nextPair_of_active {maxNumRounds round : Nat} {q : SumcheckInstanceProver S F C × F}
    (h : active q.1 maxNumRounds round) (rJ : C) :
    nextPair maxNumRounds round q rJ = localStep (round - q.1.roundOffset maxNumRounds) q rJ := by
  have hstill : ∀ state, active { q.1 with state } maxNumRounds round = true := fun _ => h
  simp [nextPair, roundMessage, h, ingest, hstill, localStep]

theorem nextPair_of_not_active {maxNumRounds round : Nat} {q : SumcheckInstanceProver S F C × F}
    (h : ¬ active q.1 maxNumRounds round) (rJ : C) :
    nextPair maxNumRounds round q rJ = (q.1, q.2 * 2⁻¹) := by
  simp [nextPair, roundMessage, h, ingest, horner]

theorem pairAfter_append (maxNumRounds round : Nat) (q : SumcheckInstanceProver S F C × F)
    (rs rs' : List C) :
    pairAfter maxNumRounds round q (rs ++ rs') =
      pairAfter maxNumRounds (round + rs.length) (pairAfter maxNumRounds round q rs) rs' := by
  induction rs generalizing round q with
  | nil => rfl
  | cons r rs ih =>
    simp only [List.cons_append, pairAfter, ih, List.length_cons]
    congr 1
    omega

/-- Only the state of an instance changes. -/
theorem pairAfter_static (maxNumRounds round : Nat) (q : SumcheckInstanceProver S F C × F)
    (rs : List C) :
    ∃ state, (pairAfter maxNumRounds round q rs).1 = { q.1 with state } := by
  induction rs generalizing round q with
  | nil => exact ⟨q.1.state, rfl⟩
  | cons r rs ih =>
    obtain ⟨state, hstate⟩ := ih (round + 1) (nextPair maxNumRounds round q r)
    rw [pairAfter, hstate]
    by_cases h : active q.1 maxNumRounds round
    · exact ⟨state, by rw [nextPair_of_active h]; rfl⟩
    · exact ⟨state, by rw [nextPair_of_not_active h]⟩

/-- Rounds in which an instance is not active halve its claim. -/
theorem pairAfter_of_not_active {maxNumRounds round : Nat} {q : SumcheckInstanceProver S F C × F}
    {rs : List C} (h : ∀ j < rs.length, ¬ active q.1 maxNumRounds (round + j)) :
    pairAfter maxNumRounds round q rs = (q.1, q.2 * 2⁻¹ ^ rs.length) := by
  induction rs generalizing round q with
  | nil => simp [pairAfter]
  | cons r rs ih =>
    have h0 := h 0 (by simp)
    rw [Nat.add_zero] at h0
    rw [pairAfter, nextPair_of_not_active h0, ih]
    · simp only [List.length_cons, pow_succ]
      congr 1
      ring
    · intro j hj
      have hj' := h (j + 1) (by simpa using hj)
      rwa [show round + (j + 1) = round + 1 + j by omega] at hj'

/-- Rounds in which it is active are its own. -/
theorem pairAfter_of_active (maxNumRounds : Nat) {round : Nat} {q : SumcheckInstanceProver S F C × F}
    {rs : List C} (hstart : q.1.roundOffset maxNumRounds ≤ round)
    (hend : round + rs.length ≤ q.1.roundOffset maxNumRounds + q.1.numRounds) :
    pairAfter maxNumRounds round q rs =
      localRun (round - q.1.roundOffset maxNumRounds) q rs := by
  induction rs generalizing round q with
  | nil => rfl
  | cons r rs ih =>
    have hlen : (r :: rs).length = rs.length + 1 := rfl
    have hactive : active q.1 maxNumRounds round := by
      simp only [active, Bool.and_eq_true, decide_eq_true_eq]
      omega
    rw [pairAfter, localRun, nextPair_of_active hactive,
      ih (by simp only [localStep]; omega) (by simp only [localStep]; omega)]
    congr 1
    simp only [localStep]
    omega

/-- **The dummy rounds**: an instance's claim after all rounds is that of its own
rounds, from a claim the rounds before have divided by a power of two, divided
by another in the rounds after. -/
theorem claim_after {maxNumRounds : Nat} {q : SumcheckInstanceProver S F C × F}
    (hbound : q.1.roundOffset maxNumRounds + q.1.numRounds ≤ maxNumRounds) {rs rSlice : List C}
    (hlen : rs.length = maxNumRounds)
    (hslice : slice rs (q.1.roundOffset maxNumRounds) q.1.numRounds = .some rSlice) :
    (pairAfter maxNumRounds 0 q rs).2 =
      (localRun 0 (q.1, q.2 * 2⁻¹ ^ q.1.roundOffset maxNumRounds) rSlice).2 *
        2⁻¹ ^ (maxNumRounds - (q.1.roundOffset maxNumRounds + q.1.numRounds)) := by
  set offset := q.1.roundOffset maxNumRounds with hoffset
  simp only [slice, show offset + q.1.numRounds ≤ rs.length by omega, ite_true,
    Option.some.injEq] at hslice
  have hparts : rs = rs.take offset ++ (rSlice ++ rs.drop (offset + q.1.numRounds)) := by
    rw [← hslice, ← List.drop_drop, List.take_append_drop, List.take_append_drop]
  have hlen1 : (rs.take offset).length = offset := by
    rw [List.length_take]
    omega
  have hlen2 : rSlice.length = q.1.numRounds := by
    rw [← hslice, List.length_take, List.length_drop]
    omega
  have hlen3 : (rs.drop (offset + q.1.numRounds)).length =
      maxNumRounds - (offset + q.1.numRounds) := by rw [List.length_drop, hlen]
  -- before the instance is active, while it is, and after
  have hbefore : pairAfter maxNumRounds 0 q (rs.take offset) = (q.1, q.2 * 2⁻¹ ^ offset) := by
    rw [pairAfter_of_not_active, hlen1]
    intro j hj
    simp only [active, Bool.and_eq_true, decide_eq_true_eq]
    omega
  have hduring := pairAfter_of_active maxNumRounds
    (q := (q.1, q.2 * 2⁻¹ ^ offset)) (le_refl _) (by rw [hlen2])
  obtain ⟨state, hstate⟩ := pairAfter_static maxNumRounds offset (q.1, q.2 * 2⁻¹ ^ offset) rSlice
  rw [hparts, pairAfter_append, pairAfter_append, hbefore, hlen1, Nat.zero_add,
    pairAfter_of_not_active, hlen3, hduring]
  · simp [← hoffset]
  · intro j hj
    rw [hstate]
    simp only [active, Bool.and_eq_true, decide_eq_true_eq, hlen2]
    omega

/-! ## The batch -/

/-- An instance as it enters the rounds, its input claim scaled by the rounds it
sits out. -/
def startPair (maxNumRounds : Nat) (acc : ProverOpeningAccumulator F C)
    (p : SumcheckInstanceProver S F C) : SumcheckInstanceProver S F C × F :=
  (p, p.inputClaim acc * 2 ^ (maxNumRounds - p.numRounds))

/-- An honest batch: each instance fits in the rounds, prover and verifier agree
on it, its messages sum to its claim, and the verifier expects the claim it
ends with. `R` relates the accumulators of the two sides. -/
structure Honest (R : ProverOpeningAccumulator F C → VerifierOpeningAccumulator F C → Prop)
    (maxNumRounds : Nat) (pacc : ProverOpeningAccumulator F C)
    (vacc : VerifierOpeningAccumulator F C)
    (pairs : List (SumcheckInstanceProver S F C × SumcheckInstanceVerifier F C)) : Prop where
  bounded : ∀ q ∈ pairs, q.1.roundOffset maxNumRounds + q.1.numRounds ≤ maxNumRounds
  numRounds : ∀ q ∈ pairs, q.2.numRounds = q.1.numRounds
  roundOffset : ∀ q ∈ pairs, q.2.roundOffset maxNumRounds = q.1.roundOffset maxNumRounds
  inputClaim : ∀ q ∈ pairs, q.2.inputClaim vacc = q.1.inputClaim pacc
  message : ∀ q ∈ pairs, ∀ rs : List C, rs.length < maxNumRounds →
    let p := pairAfter maxNumRounds 0 (startPair maxNumRounds pacc q.1) rs
    active p.1 maxNumRounds rs.length →
      Sums q.2.degree (roundMessage maxNumRounds rs.length p.1 p.2).1 p.2
  output : ∀ q ∈ pairs, ∀ rs : List C, rs.length = maxNumRounds → ∀ rSlice,
    slice rs (q.1.roundOffset maxNumRounds) q.1.numRounds = .some rSlice →
    let p := pairAfter maxNumRounds 0 (startPair maxNumRounds pacc q.1) rs
    ∀ pacc vacc, R pacc vacc →
      R (q.1.cacheOpenings (q.1.finalize p.1.state) pacc rSlice) (q.2.cacheOpenings vacc rSlice) ∧
        q.2.expectedOutputClaim (q.2.cacheOpenings vacc rSlice) rSlice = p.2
  accumulators : R pacc vacc
  pending : ∀ pacc vacc, R pacc vacc → pacc.pendingClaims = vacc.pendingClaims

/-- In every round some message has two coefficients or more. -/
def Compresses (maxNumRounds : Nat) (pacc : ProverOpeningAccumulator F C)
    (provers : List (SumcheckInstanceProver S F C)) : Prop :=
  ∀ rs : List C, rs.length < maxNumRounds → CompressesRound maxNumRounds rs.length
    (provers.map fun p => pairAfter maxNumRounds 0 (startPair maxNumRounds pacc p) rs)

omit [Challenge C F] in
theorem Sums.mono {d d' : Nat} {poly : UniPoly F} {claim : F} (h : Sums d poly claim) (hd : d ≤ d') :
    Sums d' poly claim :=
  ⟨h.nonempty, le_trans h.degree (by omega), h.sum⟩

section Batch

variable {R : ProverOpeningAccumulator F C → VerifierOpeningAccumulator F C → Prop}
  {maxNumRounds : Nat} {pacc : ProverOpeningAccumulator F C} {vacc : VerifierOpeningAccumulator F C}
  {pairs : List (SumcheckInstanceProver S F C × SumcheckInstanceVerifier F C)}

omit [Challenge C F] in
/-- The scaled input claims. -/
theorem mapM_mulPow2 {α : Type} (claim : α → F) (rounds : α → Nat) {l : List α}
    (h : ∀ a ∈ l, maxNumRounds - rounds a ≤ 255) :
    (l.mapM fun a => mulPow2 (claim a) (maxNumRounds - rounds a)) =
      .some (l.map fun a => claim a * 2 ^ (maxNumRounds - rounds a)) := by
  induction l with
  | nil => rfl
  | cons a l ih =>
    rw [List.mapM_cons, mulPow2_eq (h a (by simp)), ih fun b hb => h b (by simp [hb])]
    rfl

omit [Challenge C F] in
/-- The openings of the two sides, at equal slices. -/
theorem expect_agrees {rs : List C} (hrs : rs.length = maxNumRounds)
    (start : SumcheckInstanceVerifier F C → Nat × Nat)
    (after : SumcheckInstanceProver S F C → SumcheckInstanceProver S F C × F)
    (hbounded : ∀ q ∈ pairs, q.1.roundOffset maxNumRounds + q.1.numRounds ≤ maxNumRounds)
    (hstart : ∀ q ∈ pairs, slice rs (start q.2).1 (start q.2).2 =
      slice rs (q.1.roundOffset maxNumRounds) q.1.numRounds)
    (hstatic : ∀ p, ∃ state, (after p).1 = { p with state })
    (houtput : ∀ q ∈ pairs, ∀ rSlice,
      slice rs (q.1.roundOffset maxNumRounds) q.1.numRounds = .some rSlice →
      ∀ pacc vacc, R pacc vacc →
        R (q.1.cacheOpenings (q.1.finalize (after q.1).1.state) pacc rSlice)
          (q.2.cacheOpenings vacc rSlice) ∧
        q.2.expectedOutputClaim (q.2.cacheOpenings vacc rSlice) rSlice = (after q.1).2)
    (hacc : R pacc vacc) {coeffs : List F} (hcoeffs : coeffs.length = pairs.length) :
    ∃ pacc' vacc',
      cacheAll maxNumRounds rs (((pairs.map Prod.fst).map after).map fun q =>
        { q.1 with state := q.1.finalize q.1.state }) pacc = .some pacc' ∧
      expectAll start rs ((pairs.map Prod.snd).zip coeffs) vacc =
        .some (combine (((pairs.map Prod.fst).map after).map Prod.snd) coeffs, vacc') ∧
      R pacc' vacc' := by
  induction pairs generalizing pacc vacc coeffs with
  | nil => exact ⟨pacc, vacc, rfl, by simp [expectAll, combine], hacc⟩
  | cons q pairs ih =>
    cases coeffs with
    | nil => simp at hcoeffs
    | cons k coeffs =>
      have hfit := hbounded q (by simp)
      obtain ⟨rSlice, hslice⟩ : ∃ rSlice,
          slice rs (q.1.roundOffset maxNumRounds) q.1.numRounds = .some rSlice :=
        ⟨_, by rw [slice, hrs, if_pos hfit]⟩
      obtain ⟨hacc', hclaim⟩ := houtput q (by simp) rSlice hslice pacc vacc hacc
      obtain ⟨pacc', vacc', hcache, hexpect, hR⟩ := ih (fun q hq => hbounded q (by simp [hq]))
        (fun q hq => hstart q (by simp [hq])) (fun q hq => houtput q (by simp [hq])) hacc'
        (by simpa using hcoeffs)
      obtain ⟨state, hstate⟩ := hstatic q.1
      rw [hstate] at hcache
      refine ⟨pacc', vacc', ?_, ?_, hR⟩
      · simp only [List.map_cons, cacheAll, hstate, hslice, Option.bind_eq_bind, Option.bind_some]
        exact hcache
      · simp only [List.map_cons, List.zip_cons_cons, expectAll, hstart q (by simp), hslice,
          Option.bind_eq_bind, Option.bind_some, hexpect, hclaim, combine_cons]

variable [DecidableEq F]

variable (tr) in
/-- **A batch is accepted** by a verifier that takes the instances' slices of the
challenges where the prover does. -/
theorem verifyWith_agrees (start : Nat → List C → SumcheckInstanceVerifier F C → Nat × Nat)
    (hmax : (pairs.map (·.1.numRounds)).max? = .some maxNumRounds)
    (h : Honest R maxNumRounds pacc vacc pairs)
    (hscale : ∀ q ∈ pairs, maxNumRounds - q.1.numRounds ≤ 255)
    (hcompress : Compresses maxNumRounds pacc (pairs.map Prod.fst))
    (hstart : ∀ q ∈ pairs, ∀ rs : List C, rs.length = maxNumRounds →
      slice rs (start maxNumRounds rs q.2).1 (start maxNumRounds rs q.2).2 =
        slice rs (q.1.roundOffset maxNumRounds) q.1.numRounds) (t : T) :
    ∃ proof rs init pacc' vacc' t' coeffs,
      prove tr (pairs.map Prod.fst) pacc t = .some ((proof, rs, init), pacc', t') ∧
      verifyWith tr start proof (pairs.map Prod.snd) vacc t =
        .some (.ok (coeffs, rs), vacc', t') ∧
      rs.length = maxNumRounds ∧
      ∃ maxDegree t1 t2, proof.verify tr init maxNumRounds maxDegree t1 =
        .some (.ok (combine (pairs.map fun q =>
          (pairAfter maxNumRounds 0 (startPair maxNumRounds pacc q.1) rs).2) coeffs, rs), t2) := by
  -- the largest degree bounds every message
  obtain ⟨maxDegree, hdegree⟩ : ∃ d, (pairs.map (·.2.degree)).max? = .some d := by
    cases hd : (pairs.map (·.2.degree)).max? with
    | some d => exact ⟨d, rfl⟩
    | none =>
      simp only [List.max?_eq_none_iff, List.map_eq_nil_iff] at hd
      simp [hd] at hmax
  have hdegree_le : ∀ q ∈ pairs, q.2.degree ≤ maxDegree := fun q hq =>
    (List.max?_eq_some_iff.mp hdegree).2 _ (List.mem_map_of_mem (f := (·.2.degree)) hq)
  -- the two sides read the claims and draw the coefficients alike
  have hmaxP : ((pairs.map Prod.fst).map (·.numRounds)).max? = .some maxNumRounds := by
    rw [← hmax, List.map_map]
    rfl
  have hdegreeV : ((pairs.map Prod.snd).map (·.degree)).max? = .some maxDegree := by
    rw [← hdegree, List.map_map]
    rfl
  have hmaxV : ((pairs.map Prod.snd).map (·.numRounds)).max? = .some maxNumRounds := by
    rw [← hmax, List.map_map]
    congr 1
    exact List.map_congr_left fun q hq => h.numRounds q hq
  have hinput : ∀ t, (pairs.map Prod.snd).foldl
      (fun t s => tr.appendScalar t "sumcheck_claim" (s.inputClaim vacc)) t =
      (pairs.map Prod.fst).foldl
        (fun t s => tr.appendScalar t "sumcheck_claim" (s.inputClaim pacc)) t := by
    intro t
    simp only [List.foldl_map]
    refine List.foldl_ext _ _ t fun t q hq => ?_
    rw [h.inputClaim q hq]
  set t1 := (pairs.map Prod.fst).foldl
    (fun t s => tr.appendScalar t "sumcheck_claim" (s.inputClaim pacc)) t with ht1
  obtain ⟨coeffs, t2, hvector⟩ : ∃ coeffs t2,
      tr.challengeVector t1 pairs.length = (coeffs, t2) := ⟨_, _, rfl⟩
  have hcoeffs : coeffs.length = pairs.length := by
    rw [← tr.length_challengeVector t1 pairs.length, hvector]
  have hclaimsP := mapM_mulPow2 (F := F)
    (fun p : SumcheckInstanceProver S F C => p.inputClaim pacc) (·.numRounds)
    (l := pairs.map Prod.fst) (by
      intro p hp
      obtain ⟨q, hq, rfl⟩ := List.mem_map.mp hp
      exact hscale q hq)
  have hclaimsV := mapM_mulPow2 (F := F)
    (fun v : SumcheckInstanceVerifier F C => v.inputClaim vacc) (·.numRounds)
    (l := pairs.map Prod.snd) (by
      intro p hp
      obtain ⟨q, hq, rfl⟩ := List.mem_map.mp hp
      rw [h.numRounds q hq]
      exact hscale q hq)
  set claims := (pairs.map Prod.fst).map fun p =>
    p.inputClaim pacc * 2 ^ (maxNumRounds - p.numRounds) with hclaims
  have hclaimsEq : ((pairs.map Prod.snd).map fun v =>
      v.inputClaim vacc * 2 ^ (maxNumRounds - v.numRounds)) = claims := by
    simp only [hclaims, List.map_map]
    refine List.map_congr_left fun q hq => ?_
    simp only [Function.comp, h.inputClaim q hq, h.numRounds q hq]
  have hzip : (pairs.map Prod.fst).zip claims =
      (pairs.map Prod.fst).map (startPair maxNumRounds pacc) := by
    have hself := List.zip_map' (f := id) (g := fun p : SumcheckInstanceProver S F C =>
      p.inputClaim pacc * 2 ^ (maxNumRounds - p.numRounds)) (l := pairs.map Prod.fst)
    rw [List.map_id] at hself
    exact hself
  -- the rounds
  obtain ⟨rs, ps, t3, hrs, hps, hprove, hverify⟩ := @rounds_agree S F C T _ _ tr maxDegree
    maxNumRounds maxNumRounds 0 coeffs
    (s := ⟨(pairs.map Prod.fst).map (startPair maxNumRounds pacc), [], [], t2⟩)
    (by
      intro rs hrs q hq hactive
      simp only [List.map_map, List.mem_map, Function.comp] at hq
      obtain ⟨pair, hpair, rfl⟩ := hq
      rw [Nat.zero_add] at hactive ⊢
      exact (h.message pair hpair rs hrs hactive).mono (hdegree_le pair hpair))
    (by
      intro rs hrs
      have hc := hcompress rs hrs
      simpa [List.map_map, Function.comp_def] using hc)
  have hstartClaims : ((pairs.map Prod.fst).map (startPair maxNumRounds pacc)).map Prod.snd =
      claims := by
    rw [hclaims, List.map_map]
    rfl
  simp only [hstartClaims, List.nil_append] at hprove hverify
  -- the openings
  obtain ⟨pacc', vacc', hcache, hexpect, hR⟩ := expect_agrees (R := R) hrs
    (start maxNumRounds rs) (fun p => pairAfter maxNumRounds 0 (startPair maxNumRounds pacc p) rs)
    h.bounded (fun q hq => hstart q hq rs hrs) (fun p => pairAfter_static maxNumRounds 0 _ rs)
    (fun q hq rSlice hslice => h.output q hq rs hrs rSlice hslice) h.accumulators hcoeffs
  have hproof : ∀ r, ClearSumcheckProof.verify tr ⟨ps⟩ (combine claims coeffs) maxNumRounds
      maxDegree t2 = r ↔ ClearSumcheckProof.verifyRounds tr maxDegree ps (combine claims coeffs) []
        t2 = r := by
    intro r
    simp [ClearSumcheckProof.verify, hps]
  have hfinals : (((pairs.map Prod.fst).map (startPair maxNumRounds pacc)).map fun q =>
      pairAfter maxNumRounds 0 q rs) =
      (pairs.map Prod.fst).map fun p =>
        pairAfter maxNumRounds 0 (startPair maxNumRounds pacc p) rs := by
    rw [List.map_map]
    rfl
  rw [hfinals] at hprove hverify
  have hverify0 := (hproof _).mpr (hverify [])
  rw [List.nil_append] at hverify0
  refine ⟨⟨ps⟩, rs, combine claims coeffs, (pacc'.flushToTranscript tr t3).1,
    (vacc'.flushToTranscript tr t3).1, (pacc'.flushToTranscript tr t3).2, coeffs, ?_, ?_, hrs,
    maxDegree, t2, t3, ?_⟩
  · simp only [prove, hmaxP, Option.bind_eq_bind, Option.bind_some, ← ht1, List.length_map, hvector,
      hclaimsP, hzip, hprove, hcache]
  · simp only [verifyWith, hmaxV, hdegreeV, Option.bind_eq_bind, Option.bind_some, hinput, ← ht1,
      List.length_map, hvector, hclaimsV, hclaimsEq, hverify0, hexpect]
    simp [VerifierOpeningAccumulator.flushToTranscript,
      ProverOpeningAccumulator.flushToTranscript, h.pending _ _ hR]
  · rw [hverify0]
    simp [List.map_map, Function.comp_def]

omit [DecidableEq F] in
/-- The claim an instance of the batch ends with, at any offset: that of its own
rounds from its input claim scaled by the rounds after it, which take the
scaling back. -/
theorem final_claim {p : SumcheckInstanceProver S F C}
    (hbound : p.roundOffset maxNumRounds + p.numRounds ≤ maxNumRounds) {rs rSlice : List C}
    (hlen : rs.length = maxNumRounds)
    (hslice : slice rs (p.roundOffset maxNumRounds) p.numRounds = .some rSlice) :
    (pairAfter maxNumRounds 0 (startPair maxNumRounds pacc p) rs).2 =
      (localRun 0 (p, p.inputClaim pacc *
        2 ^ (maxNumRounds - (p.roundOffset maxNumRounds + p.numRounds))) rSlice).2 *
        2⁻¹ ^ (maxNumRounds - (p.roundOffset maxNumRounds + p.numRounds)) := by
  rw [claim_after (q := startPair maxNumRounds pacc p) hbound hlen hslice]
  have htwo := JoltField.two_ne_zero (F := F)
  have hscale : (2 : F) ^ (maxNumRounds - p.numRounds) * 2⁻¹ ^ p.roundOffset maxNumRounds =
      2 ^ (maxNumRounds - (p.roundOffset maxNumRounds + p.numRounds)) := by
    rw [show maxNumRounds - p.numRounds = p.roundOffset maxNumRounds +
      (maxNumRounds - (p.roundOffset maxNumRounds + p.numRounds)) by omega, pow_add, inv_pow]
    field_simp
  simp only [startPair, mul_assoc, hscale]

/-- Messages that scale with the claim they are computed from. -/
def Scales (p : SumcheckInstanceProver S F C) : Prop :=
  ∀ state round claim k, p.computeMessage state round (claim * k) =
    (⟨(p.computeMessage state round claim).1.coeffs.map (· * k)⟩,
      (p.computeMessage state round claim).2)

omit [Challenge C F] [DecidableEq F] in
theorem horner_map_mul (x k : F) (coeffs : List F) :
    horner x (coeffs.map (· * k)) = horner x coeffs * k := by
  induction coeffs with
  | nil => simp [horner]
  | cons c coeffs ih =>
    simp only [horner] at ih
    simp only [List.map_cons, horner, List.foldr_cons, ih]
    ring

omit [DecidableEq F] in
theorem localRun_scales {p : SumcheckInstanceProver S F C} (h : Scales p) (round : Nat) (claim k : F)
    (rs : List C) :
    localRun round (p, claim * k) rs =
      ((localRun round (p, claim) rs).1, (localRun round (p, claim) rs).2 * k) := by
  induction rs generalizing p round claim with
  | nil => rfl
  | cons r rs ih =>
    have hstep : localStep round (p, claim * k) r =
        ((localStep round (p, claim) r).1, (localStep round (p, claim) r).2 * k) := by
      simp only [localStep, h p.state round claim k, horner_map_mul]
    have hnext : Scales (localStep round (p, claim) r).1 := fun state => h state
    rw [localRun, hstep, ih hnext]
    rfl

/-- **Proving and verifying a batch agree.** At every offset the proof verifies
to the combination of the instances' final claims. Each of these is the one of the
instance alone on its slice, if its messages scale with the claim, if it ends with
the last round or if it has none. And `verify_standard` returns the prover's challenges
over the same transcript when every instance of one round or more ends with the last
one. -/
theorem batch_agrees (hmax : (pairs.map (·.1.numRounds)).max? = .some maxNumRounds)
    (h : Honest R maxNumRounds pacc vacc pairs)
    (hscale : ∀ q ∈ pairs, maxNumRounds - q.1.numRounds ≤ 255)
    (hcompress : Compresses maxNumRounds pacc (pairs.map Prod.fst)) (t : T) :
    ∃ proof rs init pacc' t' coeffs finals,
      prove tr (pairs.map Prod.fst) pacc t = .some ((proof, rs, init), pacc', t') ∧
      (∃ maxDegree t1 t2, proof.verify tr init maxNumRounds maxDegree t1 =
        .some (.ok (combine (pairs.map finals) coeffs, rs), t2)) ∧
      (∃ vacc', verify tr proof (pairs.map Prod.snd) vacc t = .some (.ok (coeffs, rs), vacc', t')) ∧
      (∀ q ∈ pairs, ∀ rSlice, slice rs (q.1.roundOffset maxNumRounds) q.1.numRounds = .some rSlice →
        (Scales q.1 ∨ q.1.roundOffset maxNumRounds = maxNumRounds - q.1.numRounds ∨ q.1.numRounds = 0 →
          finals q = (localRun 0 (q.1, q.1.inputClaim pacc) rSlice).2)) ∧
      ((∀ q ∈ pairs, q.1.roundOffset maxNumRounds = maxNumRounds - q.1.numRounds ∨
          q.1.numRounds = 0) →
        ∃ vacc', verifyStandard tr proof (pairs.map Prod.snd) vacc t = .some (.ok rs, vacc', t')) := by
  have htwo := JoltField.two_ne_zero (F := F)
  obtain ⟨proof, rs, init, pacc', vacc', t', coeffs, hprove, hverify, hrs, maxDegree, t1, t2, hproof⟩ :=
    verifyWith_agrees tr (fun m _ s => (s.roundOffset m, s.numRounds)) hmax h hscale hcompress
      (fun q hq rs _ => by rw [h.roundOffset q hq, h.numRounds q hq]) t
  refine ⟨proof, rs, init, pacc', t', coeffs,
    fun q => (pairAfter maxNumRounds 0 (startPair maxNumRounds pacc q.1) rs).2, hprove,
    ⟨maxDegree, t1, t2, hproof⟩, ⟨vacc', hverify⟩, fun q hq rSlice hslice hq' => ?_, fun hlast => ?_⟩
  · simp only
    rw [final_claim (h.bounded q hq) hrs hslice]
    rcases hq' with hs | hdefault | hzero
    · rw [localRun_scales hs, mul_assoc, ← mul_pow, mul_inv_cancel₀ htwo, one_pow, mul_one]
    · have hb := h.bounded q hq
      rw [show maxNumRounds - (q.1.roundOffset maxNumRounds + q.1.numRounds) = 0 by omega]
      simp
    · -- no rounds: the claim is scaled and halved back
      have hempty : rSlice = [] := by
        rw [slice, hzero] at hslice
        split_ifs at hslice with hfit
        simpa using hslice.symm
      rw [hempty, localRun, localRun, mul_assoc, ← mul_pow, mul_inv_cancel₀ htwo, one_pow, mul_one]
  · obtain ⟨proof2, rs2, init2, pacc2, vacc2, t2', coeffs2, hprove2, hverify2, -⟩ :=
      verifyWith_agrees tr (fun m r s => (m - s.numRounds, r.length - (m - s.numRounds))) hmax h
        hscale hcompress
        (by
          intro q hq rs hrs
          have hb := h.bounded q hq
          rw [h.numRounds q hq, hrs]
          rcases hlast q hq with hdefault | hzero
          · rw [hdefault, show maxNumRounds - (maxNumRounds - q.1.numRounds) = q.1.numRounds by omega]
          · -- no rounds, an empty slice wherever it starts
            simp [slice, hzero, hrs]
            omega) t
    rw [hprove] at hprove2
    cases hprove2
    exact ⟨vacc2, by simp [verifyStandard, hverify2, Except.map]⟩

end Batch

/-! ## Two instances, over two rounds -/

/-- An instance over both rounds whose messages are zero, and one over a single
round from `offset` on, whose claim is one and whose message is linear. -/
def twoInstances (offset : Nat) :
    List (SumcheckInstanceProver Unit (ZMod 7) (ZMod 7) ×
      SumcheckInstanceVerifier (ZMod 7) (ZMod 7)) :=
  [({ state := (), numRounds := 2, roundOffset := fun _ => 0, inputClaim := fun _ => 0
      computeMessage := fun _ _ _ => (⟨[0, 0]⟩, ()), ingestChallenge := fun _ _ _ => ()
      finalize := fun _ => (), cacheOpenings := fun _ acc _ => acc },
    { degree := 1, numRounds := 2, roundOffset := fun _ => 0, inputClaim := fun _ => 0
      expectedOutputClaim := fun _ _ => 0, cacheOpenings := fun acc _ => acc }),
   ({ state := (), numRounds := 1, roundOffset := fun _ => offset, inputClaim := fun _ => 1
      computeMessage := fun _ _ claim => (⟨[0, claim]⟩, ()), ingestChallenge := fun _ _ _ => ()
      finalize := fun _ => (), cacheOpenings := fun _ acc _ => acc },
    { degree := 1, numRounds := 1, roundOffset := fun _ => offset, inputClaim := fun _ => 1
      expectedOutputClaim := fun _ r => r.headD 0, cacheOpenings := fun acc _ => acc })]

theorem honest_twoInstances {offset : Nat} (h : offset ≤ 1) :
    Honest (fun p v => p.pendingClaims = v.pendingClaims) 2 .new (.prepopulated fun _ => .none)
      (twoInstances offset) where
  bounded q hq := by
    simp only [twoInstances, List.mem_cons, List.not_mem_nil, or_false] at hq
    rcases hq with rfl | rfl
    · simp
    · simp only
      omega
  numRounds q hq := by
    simp only [twoInstances, List.mem_cons, List.not_mem_nil, or_false] at hq
    rcases hq with rfl | rfl <;> rfl
  roundOffset q hq := by
    simp only [twoInstances, List.mem_cons, List.not_mem_nil, or_false] at hq
    rcases hq with rfl | rfl <;> rfl
  inputClaim q hq := by
    simp only [twoInstances, List.mem_cons, List.not_mem_nil, or_false] at hq
    rcases hq with rfl | rfl <;> rfl
  message q hq rs hrs := by
    simp only [twoInstances, List.mem_cons, List.not_mem_nil, or_false] at hq
    interval_cases offset <;> rcases hq with rfl | rfl <;>
      match rs, hrs with
      | [], _ | [_], _ =>
        intro p hactive
        refine ⟨?_, ?_, ?_⟩ <;> simp_all +decide [p, roundMessage, active, pairAfter, startPair, nextPair,
          ingest, UniPoly.sumOverBit, horner]
  output q hq rs hrs rSlice hslice := by
    have htwo : (2 : ZMod 7) * 2⁻¹ = 1 := by decide +kernel
    have hhalf : ∀ a : ZMod 7, a * 2 * 2⁻¹ = a := by decide +kernel
    obtain ⟨a, b, rfl⟩ : ∃ a b, rs = [a, b] := by
      exact List.length_eq_two.mp hrs
    simp only [twoInstances, List.mem_cons, List.not_mem_nil, or_false] at hq
    interval_cases offset <;> rcases hq with rfl | rfl <;>
      simp [slice] at hslice <;> subst hslice <;>
      simp [pairAfter, nextPair, roundMessage, active, startPair, ingest, horner, Challenge.into,
        htwo, hhalf]
  accumulators := rfl
  pending _ _ h := h

theorem compresses_twoInstances (offset : Nat) :
    Compresses 2 .new ((twoInstances offset).map Prod.fst) := by
  intro rs hrs
  match rs, hrs with
  | [], _ | [_], _ =>
    refine ⟨_, List.mem_map_of_mem (List.mem_cons_self ..), ?_⟩
    simp [roundMessage, active, pairAfter, startPair, nextPair, ingest]

/-- The instance of one round sits out the first. -/
theorem batch_agrees_two :
    ∃ proof rs init pacc' t',
      prove countingTranscript ((twoInstances 1).map Prod.fst) .new 0 =
        .some ((proof, rs, init), pacc', t') ∧
      ∃ vacc', verifyStandard countingTranscript proof ((twoInstances 1).map Prod.snd)
        (.prepopulated fun _ => .none) 0 = .some (.ok rs, vacc', t') := by
  obtain ⟨proof, rs, init, pacc', t', coeffs, finals, hprove, -, -, -, hstandard⟩ :=
    @batch_agrees _ _ _ _ _ _ countingTranscript _ 2 _ _ (twoInstances 1) _ (by rfl)
      (honest_twoInstances (le_refl 1)) (by simp [twoInstances]) (compresses_twoInstances 1) 0
  exact ⟨proof, rs, init, pacc', t', hprove, hstandard (by simp [twoInstances])⟩

/-- It sits out the last: `verify_standard` hands it the challenge of the round it
sat out, and refuses the proof. -/
theorem verify_standard_rejects :
    Honest (fun p v => p.pendingClaims = v.pendingClaims) 2 .new (.prepopulated fun _ => .none)
        (twoInstances 0) ∧
      Compresses 2 .new ((twoInstances 0).map Prod.fst) ∧
      ((do
        let ((proof, _, _), _, _) ← prove countingTranscript ((twoInstances 0).map Prod.fst) .new 0
        let (result, _, _) ← verifyStandard countingTranscript proof ((twoInstances 0).map Prod.snd)
          (.prepopulated fun _ => .none) 0
        .some result) : Option (Except ProofVerifyError (List (ZMod 7)))) =
          .some (.error .SumcheckVerificationError) :=
  ⟨honest_twoInstances (by omega), compresses_twoInstances 0, by decide +kernel⟩

end BatchedSumcheck

end LightningJolt
