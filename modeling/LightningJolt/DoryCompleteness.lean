/-
Honest Dory evaluation proofs: the prover stops only where a challenge is zero, and the verifier,
over the same transcript, accepts what it makes.
-/
import LightningJolt.DoryOpening

namespace LightningJolt.Dory

variable {S F G1 G2 GT : Type} [Field F] [DecidableEq F] [AddCommGroup G1] [Module F G1] [AddCommGroup G2]
  [Module F G2] [AddCommGroup GT] [Module F GT]

/-! ## The states at the start -/

section Padding

omit [DecidableEq F]

theorem tensorBasis_zeros (coords : List F) (k : Nat) :
    tensorBasis (coords ++ List.replicate k 0) =
      tensorBasis coords ++ List.replicate (2 ^ (coords.length + k) - 2 ^ coords.length) 0 := by
  induction k with
  | zero => simp
  | succ k ih =>
    have hpow : 2 ^ (coords.length + (k + 1)) = 2 ^ (coords.length + k) + 2 ^ (coords.length + k) := by
      rw [← Nat.add_assoc, pow_succ]; omega
    have hle : 2 ^ coords.length ≤ 2 ^ (coords.length + k) := Nat.pow_le_pow_right (by omega) (by omega)
    have hzeros : (tensorBasis (coords ++ List.replicate k 0)).map (· * (0 : F)) =
        List.replicate (2 ^ (coords.length + k)) 0 := by
      simp [List.map_const']
    rw [List.replicate_succ', ← List.append_assoc, tensorBasis_snoc, hzeros, ih, List.map_append,
      List.map_replicate, List.append_assoc, sub_zero, zero_mul, List.replicate_append_replicate]
    simp only [mul_one, List.map_id']
    rw [hpow, Nat.sub_add_comm hle]

/-- A vector that is resized when there are fewer rows than columns is padded in either case. -/
theorem padded_eq {α : Type} {xs : List α} {nu sigma : Nat} (a : α) (h : xs.length = 2 ^ nu) (hle : nu ≤ sigma) :
    (if nu < sigma then resize xs (2 ^ sigma) a else xs) = xs ++ List.replicate (2 ^ sigma - 2 ^ nu) a := by
  have hpow : 2 ^ nu ≤ 2 ^ sigma := Nat.pow_le_pow_right (by omega) hle
  split
  · rw [resize, List.take_of_length_le (by omega), h]
  · obtain rfl : nu = sigma := by omega
    simp

/-- A vector that has the size of the columns stays as it is. -/
theorem unpadded_eq {α : Type} {xs : List α} {nu sigma : Nat} (a : α) (h : xs.length = 2 ^ sigma) :
    (if nu < sigma then resize xs (2 ^ sigma) a else xs) = xs := by
  simp [resize, h, List.take_of_length_le]

end Padding

section Start

variable {pair : G1 →ₗ[F] G2 →ₗ[F] GT} {setup : ProverSetup G1 G2 GT} {poly : ArkworksPolynomial F} {point : List F}
  {m nu sigma : Nat} {g2Fin : G2}

omit [DecidableEq F] in
variable (poly) in
/-- The states with which prover and verifier enter the rounds. -/
theorem linked_new (hv : setup.Valid pair m) (hpoint : point.length = nu + sigma)
    (hle : nu ≤ sigma) (hsigma : sigma ≤ m) (hfin : setup.g2Vec[0]? = .some g2Fin) (blind rC rD2 rE1 rE2 : F) :
    let left := tensorBasis (point.drop sigma)
    let v := poly.vectorMatrixProduct left nu sigma
    let rows := poly.rows setup.g1Vec nu sigma
    let padded := rows ++ List.replicate (2 ^ sigma - 2 ^ nu) 0
    Linked pair setup
      ((DoryProverState.new padded (DoryRoutines.fixedBaseVectorScalarMul g2Fin v) (.some v)
        (tensorBasis (point.take sigma)) (left ++ List.replicate (2 ^ sigma - 2 ^ nu) 0)).setInitialBlinds
          blind rC rD2 rE1 rE2)
      (DoryVerifierState.new (pair (msm padded v) g2Fin + rC • setup.ht)
        (dot pair rows (setup.g2Vec.take (2 ^ nu)) + blind • setup.ht)
        (pair (msm (setup.g1Vec.take (2 ^ sigma)) v) g2Fin + rD2 • setup.ht)
        (msm rows left + rE1 • setup.h1)
        (msm v (tensorBasis (point.take sigma)) • g2Fin + rE2 • setup.h2)
        (point.take sigma) (point.drop sigma ++ List.replicate (sigma - nu) 0) sigma) sigma := by
  intro left v rows padded
  obtain ⟨hg1, hg2⟩ := hv.pow_le hsigma
  have hpow : 2 ^ nu ≤ 2 ^ sigma := Nat.pow_le_pow_right (by omega) hle
  have hcols : (point.take sigma).length = sigma := by simp [hpoint]
  have hrows : (point.drop sigma).length = nu := by simp [hpoint]
  have hleft : left.length = 2 ^ nu := by simp [left, hrows]
  have hv' : v.length = 2 ^ sigma := by simp [v, ArkworksPolynomial.vectorMatrixProduct, Nat.one_shiftLeft]
  have hrowsLen : rows.length = 2 ^ nu := poly.length_rows ..
  have hpadded : padded.length = 2 ^ sigma := by
    rw [List.length_append, List.length_replicate, hrowsLen]
    omega
  constructor
  case shaped =>
    refine ⟨?_, hpadded, ?_, ?_, ?_, ?_⟩
    · have hlt := hv.lt_width
      simp only [DoryProverState.new, DoryProverState.setInitialBlinds, hpadded]
      exact ProverSetup.trailingZeros_two_pow (by omega)
    · simp [DoryProverState.new, DoryProverState.setInitialBlinds, DoryRoutines.fixedBaseVectorScalarMul, hv']
    · simp [DoryProverState.new, DoryProverState.setInitialBlinds, hcols]
    · simp only [DoryProverState.new, DoryProverState.setInitialBlinds, List.length_append, List.length_replicate,
        hleft]
      omega
    · intro ks hks
      obtain rfl : v = ks := by simpa [DoryProverState.new, DoryProverState.setInitialBlinds] using hks
      exact ⟨g2Fin, hfin, rfl⟩
  case numRounds_eq => rfl
  case c_eq =>
    simp only [DoryProverState.new, DoryProverState.setInitialBlinds, DoryVerifierState.new, apply_msm]
    rfl
  case d1_eq =>
    simp only [DoryProverState.new, DoryProverState.setInitialBlinds, DoryVerifierState.new]
    have hsplit := dot_take_drop pair (2 ^ nu) (show 2 ^ nu ≤ padded.length by omega)
      (show 2 ^ nu ≤ (setup.g2Vec.take (2 ^ sigma)).length by simp; omega)
    rw [hsplit, List.take_left' hrowsLen, List.drop_left' hrowsLen, dot_zeros_left, add_zero, List.take_take, Nat.min_eq_left hpow]
  case d2_eq =>
    simp only [DoryProverState.new, DoryProverState.setInitialBlinds, DoryVerifierState.new, apply_msm]
    rfl
  case e1_eq =>
    simp only [DoryProverState.new, DoryProverState.setInitialBlinds, DoryVerifierState.new, msm]
    rw [dot_append _ (hrowsLen.trans hleft.symm), dot_zeros_left, add_zero]
  case e2_eq =>
    simp only [DoryProverState.new, DoryProverState.setInitialBlinds, DoryVerifierState.new,
      DoryRoutines.fixedBaseVectorScalarMul, msm_multiples]
  case length_s1Coords => exact hcols.ge
  case length_s2Coords =>
    simp only [DoryVerifierState.new, List.length_append, List.length_replicate, hrows]
    omega
  case s1_eq =>
    simp [DoryProverState.new, DoryProverState.setInitialBlinds, DoryVerifierState.new, List.take_take]
  case s2_eq =>
    simp only [DoryProverState.new, DoryProverState.setInitialBlinds, DoryVerifierState.new, one_mul, List.map_id']
    rw [List.take_of_length_le (by simp [hrows]; omega), tensorBasis_zeros, hrows, Nat.add_sub_cancel' hle]

end Start

/-! ## The challenges that a prover inverts -/

section Draws

variable (tr : Transcript S F G1 G2 GT) (mode : Mode) (pair : G1 →ₗ[F] G2 →ₗ[F] GT) (setup : ProverSetup G1 G2 GT)

/-- The states at which the rounds of a prover draw their challenges. -/
inductive RoundDraws (random : Nat → RoundRandomness F) :
    Nat → Nat → DoryProverState F G1 G2 → S → String → S → Prop
  | beta {left round : Nat} {st st1 : DoryProverState F G1 G2} {t : S} {first : FirstReduceMessage G1 G2 GT}
      (hfirst : st.computeFirstMessage mode (random round) pair setup = .ok (first, st1)) :
      RoundDraws random (left + 1) round st t "beta" (tr.absorbFirst t first)
  | alpha {left round : Nat} {st st1 st2 st3 : DoryProverState F G1 G2} {t t1 : S}
      {first : FirstReduceMessage G1 G2 GT} {second : SecondReduceMessage G1 G2 GT}
      (hfirst : st.computeFirstMessage mode (random round) pair setup = .ok (first, st1))
      (ht1 : tr.absorbFirst t first = t1)
      (hbeta : st1.applyFirstChallenge setup (tr.challenge t1 "beta") = .ok st2)
      (hsecond : st2.computeSecondMessage mode (random round) pair setup = .ok (second, st3)) :
      RoundDraws random (left + 1) round st t "alpha" (tr.absorbSecond (tr.drawn t1 "beta") second)
  | later {left round : Nat} {st st1 st2 st3 st4 : DoryProverState F G1 G2} {t t1 t2 : S}
      {first : FirstReduceMessage G1 G2 GT} {second : SecondReduceMessage G1 G2 GT} {label : String} {t' : S}
      (hfirst : st.computeFirstMessage mode (random round) pair setup = .ok (first, st1))
      (ht1 : tr.absorbFirst t first = t1)
      (hbeta : st1.applyFirstChallenge setup (tr.challenge t1 "beta") = .ok st2)
      (hsecond : st2.computeSecondMessage mode (random round) pair setup = .ok (second, st3))
      (ht2 : tr.absorbSecond (tr.drawn t1 "beta") second = t2)
      (halpha : st3.applySecondChallenge (tr.challenge t2 "alpha") = .ok st4)
      (hlater : RoundDraws random left (round + 1) st4 (tr.drawn t2 "alpha") label t') :
      RoundDraws random (left + 1) round st t label t'

/-- A zero among them stops the rounds. -/
theorem RoundDraws.panic {random : Nat → RoundRandomness F} {left round : Nat} {st : DoryProverState F G1 G2}
    {t t' : S} {label : String} (h : RoundDraws tr mode pair setup random left round st t label t')
    (hzero : tr.challenge t' label = 0) : proveRounds tr mode random pair setup left round st t = .panic := by
  induction h with
  | beta hfirst =>
    rw [proveRounds]
    simp only [hfirst, Outcome.ok_bind, hzero, DoryProverState.applyFirstChallenge_zero, Outcome.panic_bind]
  | alpha hfirst ht1 hbeta hsecond =>
    subst ht1
    rw [proveRounds]
    simp only [hfirst, Outcome.ok_bind, hbeta, hsecond, hzero, DoryProverState.applySecondChallenge_zero,
      Outcome.panic_bind]
  | later hfirst ht1 hbeta hsecond ht2 halpha _ ih =>
    subst ht1 ht2
    rw [proveRounds]
    simp only [hfirst, Outcome.ok_bind, hbeta, hsecond, halpha, ih hzero, Outcome.panic_bind]

variable (π : BuildProfile) (random : ProverRandomness F) (poly : ArkworksPolynomial F) (point : List F)
  (rowCommitments : Option (List G1)) (commitBlind : F) (nu sigma : Nat)

/-- `create_evaluation_proof` up to its rounds: the first message, what the zero-knowledge mode adds,
and the states of prover and transcript. -/
def evaluationStart (t : S) :
    Outcome (VMVMessage G1 GT × ZkParts F G1 G2 GT × DoryProverState F G1 G2 × S) := do
  let numVars ← .ofOption (π.addUsize nu sigma)
  .check (point.length = numVars) (.invalidPointDimension numVars point.length)
  .check (nu ≤ sigma) (.invalidSize sigma nu)
  let (rowCommitments, commitBlind) ← rowsAndBlind mode random.commit pair poly rowCommitments commitBlind nu sigma setup
  let (leftVec, rightVec) ← computeLeftRightVectors point nu sigma
  let vVec := poly.vectorMatrixProduct leftVec nu sigma
  let paddedRowCommitments := if nu < sigma then resize rowCommitments (1 <<< sigma) 0 else rowCommitments
  let rC := mode.sample random.rC
  let rD2 := mode.sample random.rD2
  let rE1 := mode.sample random.rE1
  let rE2 := mode.sample random.rE2
  let g2Fin ← .ofOption setup.g2Vec[0]?
  let tVecV ← DoryRoutines.msm paddedRowCommitments vVec
  let c := mode.mask (pair tVecV g2Fin) setup.ht rC
  let gensV ← DoryRoutines.msm (← sliceTo setup.g1Vec (1 <<< sigma)) vVec
  let d2 := mode.mask (pair gensV g2Fin) setup.ht rD2
  let e1 := mode.mask (← DoryRoutines.msm rowCommitments leftVec) setup.h1 rE1
  let vmvMessage : VMVMessage G1 GT := { c, d2, e1 }
  let t := tr.absorbVmv t vmvMessage
  let (zk, t) ← zkParts tr mode random pair poly point rD2 rE1 rE2 g2Fin setup t
  let v2 := DoryRoutines.fixedBaseVectorScalarMul g2Fin vVec
  let paddedRightVec := if nu < sigma then resize rightVec (1 <<< sigma) 0 else rightVec
  let paddedLeftVec := if nu < sigma then resize leftVec (1 <<< sigma) 0 else leftVec
  let st := DoryProverState.new paddedRowCommitments v2 (.some vVec) paddedRightVec paddedLeftVec
  return (vmvMessage, zk, st.setInitialBlinds commitBlind rC rD2 rE1 rE2, t)

/-- Its rounds and the final message. -/
def evaluationRounds (vmvMessage : VMVMessage G1 GT) (zk : ZkParts F G1 G2 GT) (st : DoryProverState F G1 G2)
    (t : S) : Outcome ((DoryProof F G1 G2 GT × Option F) × S) := do
  let numRounds := max nu sigma
  let (firstMessages, secondMessages, st, t) ← proveRounds tr mode random.rounds pair setup numRounds 0 st t
  let gamma := tr.challenge t "gamma"
  let t := tr.drawn t "gamma"
  let (scalarProductProof, t) ← productPart tr mode random pair setup st t
  let (finalMessage, _) ← st.computeFinalMessage mode setup random.final gamma
  let t := tr.absorbFinal t finalMessage
  return (({
    vmvMessage, firstMessages, secondMessages, finalMessage, nu, sigma
    e2 := zk.e2
    yCom := zk.yCom
    sigma1Proof := zk.sigma1
    sigma2Proof := zk.sigma2
    scalarProductProof }, zk.rY), t)

theorem evaluationProof_eq (t : S) :
    evaluationProof tr π mode random pair poly point rowCommitments commitBlind nu sigma setup t =
      evaluationStart tr mode pair setup π random poly point rowCommitments commitBlind nu sigma t >>= fun start =>
        evaluationRounds tr mode pair setup random nu sigma start.1 start.2.1 start.2.2.1 start.2.2.2 := by
  simp only [evaluationProof, evaluationStart, evaluationRounds, bind_assoc, Outcome.pure_eq, Outcome.ok_bind]

/-- The states at which an evaluation proof draws the challenges that it inverts. -/
inductive ProofDraws (t : S) : String → S → Prop
  | round {vmvMessage : VMVMessage G1 GT} {zk : ZkParts F G1 G2 GT} {st : DoryProverState F G1 G2} {t1 : S}
      {label : String} {t' : S}
      (hstart : evaluationStart tr mode pair setup π random poly point rowCommitments commitBlind nu sigma t =
        .ok (vmvMessage, zk, st, t1))
      (hround : RoundDraws tr mode pair setup random.rounds (max nu sigma) 0 st t1 label t') :
      ProofDraws t label t'
  | gamma {vmvMessage : VMVMessage G1 GT} {zk : ZkParts F G1 G2 GT} {st st' : DoryProverState F G1 G2}
      {t1 t2 : S} {firsts : List (FirstReduceMessage G1 G2 GT)} {seconds : List (SecondReduceMessage G1 G2 GT)}
      (hstart : evaluationStart tr mode pair setup π random poly point rowCommitments commitBlind nu sigma t =
        .ok (vmvMessage, zk, st, t1))
      (hrounds : proveRounds tr mode random.rounds pair setup (max nu sigma) 0 st t1 =
        .ok (firsts, seconds, st', t2)) :
      ProofDraws t "gamma" t2

/-- One of the challenges that an evaluation proof draws and inverts is zero. -/
def DrawsZero (t : S) : Prop :=
  ∃ label t', ProofDraws tr mode pair setup π random poly point rowCommitments commitBlind nu sigma t label t' ∧
    tr.challenge t' label = 0

omit [AddCommGroup GT] [Module F GT] in
theorem computeFinalMessage_zero (st : DoryProverState F G1 G2) (final : F × F) :
    st.computeFinalMessage mode setup final 0 = .panic := by
  simp [DoryProverState.computeFinalMessage]

omit [DecidableEq F] in
theorem productPart_ok_or_panic (st : DoryProverState F G1 G2) (t : S) :
    (∃ part t', productPart tr mode random pair setup st t = .ok (part, t')) ∨
      productPart tr mode random pair setup st t = .panic := by
  cases mode with
  | transparent => exact .inl ⟨_, _, rfl⟩
  | zk =>
    simp only [productPart, Mode.blinding, if_true, DoryProverState.scalarProductProof]
    cases st.v1[0]? with
    | none => exact .inr rfl
    | some v1 =>
      cases st.v2[0]? with
      | none => exact .inr rfl
      | some v2 =>
        cases setup.g1Vec[0]? with
        | none => exact .inr rfl
        | some g1 =>
          cases setup.g2Vec[0]? with
          | none => exact .inr rfl
          | some g2 => exact .inl ⟨_, _, rfl⟩

variable {tr mode pair setup π random poly point rowCommitments commitBlind nu sigma} in
/-- A zero among the challenges of a run stops it. -/
theorem DrawsZero.panic {t : S}
    (h : DrawsZero tr mode pair setup π random poly point rowCommitments commitBlind nu sigma t) :
    createEvaluationProof tr π mode random pair poly point rowCommitments commitBlind nu sigma setup t = .panic := by
  obtain ⟨label, t', hdraws, hzero⟩ := h
  rw [createEvaluationProof, evaluationProof_eq]
  cases hdraws with
  | round hstart hround =>
    rw [hstart, Outcome.ok_bind]
    simp only [evaluationRounds, hround.panic tr mode pair setup hzero, Outcome.panic_bind]
  | @gamma _ _ _ st' _ _ _ _ hstart hrounds =>
    rw [hstart, Outcome.ok_bind]
    simp only [evaluationRounds, hrounds, Outcome.ok_bind]
    obtain ⟨part, t3, hpart⟩ | hpart := productPart_ok_or_panic tr mode pair setup random st' (tr.drawn t' "gamma")
    · simp only [hpart, Outcome.ok_bind, hzero, computeFinalMessage_zero, Outcome.panic_bind]
    · simp only [hpart, Outcome.panic_bind]

end Draws

/-! ## The rounds -/

section Rounds

variable {tr : Transcript S F G1 G2 GT} {pair : G1 →ₗ[F] G2 →ₗ[F] GT} {setup : ProverSetup G1 G2 GT} {m : Nat}
  {g1First : G1} {g2First : G2}

variable (tr g1First g2First) in
/-- **The rounds of an honest run**: the prover's vectors still open the verifier's values after
them and both transcripts are in one state, unless a challenge was zero. -/
theorem proveRounds_linked (hv : setup.Valid pair m) (mode : Mode) (random : Nat → RoundRandomness F) {n : Nat}
    (hn : n ≤ m) (round : Nat) {p : DoryProverState F G1 G2} {v : DoryVerifierState F G1 G2 GT} (t : S)
    (hl : Linked pair setup p v n) :
    (proveRounds tr mode random pair setup n round p t = .panic ∧
        ∃ label t', RoundDraws tr mode pair setup random n round p t label t' ∧ tr.challenge t' label = 0) ∨
      ∃ firsts seconds p' v' t', proveRounds tr mode random pair setup n round p t = .ok (firsts, seconds, p', t') ∧
        firsts.length = n ∧ seconds.length = n ∧
        verifyRounds tr (setup.derived pair m g1First g2First) firsts seconds v t = .ok (v', t') ∧
        Linked pair setup p' v' 0 ∧ v'.e1Init = v.e1Init ∧ v'.d2Init = v.d2Init ∧
        (mode = .transparent → p.Unblinded → p'.Unblinded) := by
  induction n generalizing round p v t with
  | zero => exact .inr ⟨[], [], p, v, t, rfl, rfl, rfl, rfl, hl, rfl, rfl, fun _ h => h⟩
  | succ n ih =>
    obtain ⟨first, p1, hfirst, hbeta⟩ := hl.round g1First g2First hv hn mode (random round)
    rw [proveRounds]
    simp only [hfirst, Outcome.ok_bind]
    by_cases hb0 : tr.challenge (tr.absorbFirst t first) "beta" = 0
    · refine .inl ⟨?_, "beta", _, .beta hfirst, hb0⟩
      simp [hb0, DoryProverState.applyFirstChallenge_zero]
    obtain ⟨p2, hp2, second, p3, hsecond, halpha⟩ := hbeta _ hb0
    simp only [hp2, hsecond, Outcome.ok_bind]
    by_cases ha0 : tr.challenge (tr.absorbSecond (tr.drawn (tr.absorbFirst t first) "beta") second) "alpha" = 0
    · refine .inl ⟨?_, "alpha", _, .alpha hfirst rfl hp2 hsecond, ha0⟩
      simp [ha0, DoryProverState.applySecondChallenge_zero]
    obtain ⟨p4, v', hp4, hprocess, hlinked, he1, hd2, hblind⟩ := halpha _ ha0
    simp only [hp4, Outcome.ok_bind]
    obtain ⟨hpanic, label, t', hdraws, hzero⟩ | ⟨firsts, seconds, p', v'', t', hprove, hfirsts, hseconds, hverify, hlinked', he1', hd2',
      hblind'⟩ := ih (Nat.le_of_lt hn) (round + 1)
        (tr.drawn (tr.absorbSecond (tr.drawn (tr.absorbFirst t first) "beta") second) "alpha") hlinked
    · exact .inl ⟨by simp [hpanic], label, t', .later hfirst rfl hp2 hsecond rfl hp4 hdraws, hzero⟩
    · refine .inr ⟨first :: firsts, second :: seconds, p', v'', t', by simp [hprove], by simp [hfirsts],
        by simp [hseconds], ?_, hlinked', he1'.trans he1, hd2'.trans hd2, fun hmode h => hblind' hmode (hblind hmode h)⟩
      rw [verifyRounds]
      simp only [hprocess, hverify, Outcome.ok_bind]

end Rounds

/-! ## The last check -/

namespace Linked

variable [DecidableEq GT] {pair : G1 →ₗ[F] G2 →ₗ[F] GT} {setup : ProverSetup G1 G2 GT} {m : Nat} {g1First : G1}
  {g2First : G2} {p : DoryProverState F G1 G2} {v : DoryVerifierState F G1 G2 GT}

omit [DecidableEq F] [DecidableEq GT] in
/-- After the last round the vectors hold one entry each. -/
theorem singletons (hl : Linked pair setup p v 0) :
    ∃ a b, p.v1 = [a] ∧ p.v2 = [b] ∧ p.s1 = [v.s1Acc] ∧ p.s2 = [v.s2Acc] := by
  obtain ⟨a, ha⟩ := List.length_eq_one_iff.mp hl.shaped.length_v1
  obtain ⟨b, hb⟩ := List.length_eq_one_iff.mp hl.shaped.length_v2
  exact ⟨a, b, ha, hb, by simp [hl.s1_eq], by simp [hl.s2_eq]⟩

theorem verifyFinal_zero (msg : ScalarProductMessage G1 G2) (gamma : F)
    (zkData : Option (ScalarProductProof F G1 G2 GT × F)) :
    v.verifyFinal pair (setup.derived pair m g1First g2First) msg gamma 0 zkData = .error .invalidProof := by
  simp [DoryVerifierState.verifyFinal]

omit [DecidableEq GT] in
theorem computeFinalMessage_eq (hl : Linked pair setup p v 0) {a : G1} {b : G2} (ha : p.v1 = [a]) (hb : p.v2 = [b])
    (mode : Mode) (final : F × F) {gamma : F} (hgamma : gamma ≠ 0) :
    ∃ p', p.computeFinalMessage mode setup final gamma = .ok ({
      e1 := a + (gamma * v.s1Acc + mode.sample final.1) • setup.h1
      e2 := b + (gamma⁻¹ * v.s2Acc + mode.sample final.2) • setup.h2 }, p') := by
  obtain ⟨_, _, _, _, hs1, hs2⟩ := hl.singletons
  simp [DoryProverState.computeFinalMessage, inv_of_ne hgamma, ha, hb, hs1, hs2]

/-- **The transparent check** of an honest final message. -/
theorem verifyFinal_transparent (hv : setup.Valid pair m) (h1 : setup.g1Vec[0]? = .some g1First)
    (h2 : setup.g2Vec[0]? = .some g2First) (hl : Linked pair setup p v 0) (hblind : p.Unblinded) {a : G1} {b : G2}
    (ha : p.v1 = [a]) (hb : p.v2 = [b]) (hvmv : v.d2Init = pair v.e1Init g2First) {gamma d : F} (hgamma : gamma ≠ 0)
    (hd : d ≠ 0) :
    v.verifyFinal pair (setup.derived pair m g1First g2First)
      { e1 := a + (gamma * v.s1Acc) • setup.h1, e2 := b + (gamma⁻¹ * v.s2Acc) • setup.h2 } gamma d .none = .ok () := by
  obtain ⟨_, _, _, _, hs1, hs2⟩ := hl.singletons
  have hchi : (setup.derived pair m g1First g2First).chi[0]? = .some (pair g1First g2First) := by
    simp [ProverSetup.derived, ProverSetup.product, ProverSetup.take_one h1, ProverSetup.take_one h2, List.range_succ_eq_map]
  have hc := hl.c_eq
  have hd1 := hl.d1_eq
  have hd2 := hl.d2_eq
  have he1 := hl.e1_eq
  have he2 := hl.e2_eq
  simp only [ha, hb, hs1, hs2, hblind.rC_eq, hblind.rD1_eq, hblind.rD2_eq, hblind.rE1_eq, hblind.rE2_eq, zero_smul,
    add_zero, pow_zero, ProverSetup.take_one h1, ProverSetup.take_one h2, dot_cons, dot_nil_left, msm_cons, msm_nil]
    at hc hd1 hd2 he1 he2
  rw [DoryVerifierState.verifyFinal, hchi]
  simp only [inv_of_ne hd, inv_of_ne hgamma, Outcome.okOr_some, Outcome.ofOption_some, Outcome.ok_bind,
    ProverSetup.derived, multiPair, List.length_cons, List.length_nil, if_true]
  refine Outcome.check_true ?_ _
  simp only [dot_cons, dot_nil_left, hc, hd1, hd2, he1, he2, hvmv, hv.ht_eq, map_add, map_smul, LinearMap.add_apply,
    LinearMap.smul_apply, smul_add, smul_smul]
  match_scalars <;> field_simp <;> ring

/-- **The zero-knowledge check** of an honest scalar product proof, whatever the final message is. -/
theorem verifyFinal_zk (tr : Transcript S F G1 G2 GT) (h1 : setup.g1Vec[0]? = .some g1First)
    (h2 : setup.g2Vec[0]? = .some g2First) (hl : Linked pair setup p v 0) (random : ProverRandomness F) (t : S) :
    ∃ sp, p.scalarProductProof tr random pair setup t =
        .ok (sp, tr.drawn (tr.absorbProduct t sp.p1 sp.p2 sp.q sp.r) "sigma_c") ∧
      ∀ (msg : ScalarProductMessage G1 G2) (gamma d : F), d ≠ 0 →
        v.verifyFinal pair (setup.derived pair m g1First g2First) msg gamma d
          (.some (sp, tr.challenge (tr.absorbProduct t sp.p1 sp.p2 sp.q sp.r) "sigma_c")) = .ok () := by
  obtain ⟨a, b, ha, hb, hs1, hs2⟩ := hl.singletons
  have hc := hl.c_eq
  have hd1 := hl.d1_eq
  have hd2 := hl.d2_eq
  simp only [ha, hb, pow_zero, ProverSetup.take_one h1, ProverSetup.take_one h2, dot_cons, dot_nil_left, add_zero]
    at hc hd1 hd2
  rw [DoryProverState.scalarProductProof]
  simp only [ha, hb, h1, h2, List.getElem?_cons_zero, Outcome.ofOption_some, Outcome.ok_bind, Outcome.pure_eq]
  refine ⟨_, rfl, fun msg gamma d hd => ?_⟩
  generalize tr.challenge _ "sigma_c" = c
  have hchi : (setup.derived pair m g1First g2First).chi[0]? = .some (pair g1First g2First) := by
    simp [ProverSetup.derived, ProverSetup.product, ProverSetup.take_one h1, ProverSetup.take_one h2, List.range_succ_eq_map]
  rw [DoryVerifierState.verifyFinal, hchi]
  simp only [inv_of_ne hd, Outcome.okOr_some, Outcome.ofOption_some, Outcome.ok_bind, ProverSetup.derived]
  refine Outcome.check_true ?_ _
  simp only [hc, hd1, hd2, map_add, map_smul, LinearMap.add_apply, LinearMap.smul_apply, smul_add, smul_smul]
  match_scalars <;> field_simp <;> ring

end Linked

/-! ## The proofs about `E₁`, `E₂` and the value -/

section Sigma

variable [DecidableEq G1] [DecidableEq G2] [DecidableEq GT] {pair : G1 →ₗ[F] G2 →ₗ[F] GT}
  {setup : ProverSetup G1 G2 GT} {m : Nat} {g1First : G1} {g2First : G2}

omit [DecidableEq F] [DecidableEq GT] in
variable (pair) in
theorem sigma1_accepted (tr : Transcript S F G1 G2 GT) (h1 : setup.g1Vec[0]? = .some g1First)
    (h2 : setup.g2Vec[0]? = .some g2First) (random : F × F × F) (y rE2 rY : F) (t : S) :
    ∃ proof t', generateSigma1Proof tr random y rE2 rY setup t = .ok (proof, t') ∧
      verifySigma1Proof tr (y • g2First + rE2 • setup.h2) (y • g1First + rY • setup.h1) proof
        (setup.derived pair m g1First g2First) t = .ok t' := by
  rw [generateSigma1Proof]
  simp only [h1, h2, Outcome.ofOption_some, Outcome.ok_bind, Outcome.pure_eq]
  refine ⟨_, _, rfl, ?_⟩
  rw [verifySigma1Proof]
  refine Outcome.check_bind ?_ (Outcome.check_bind ?_ rfl)
  · simp only [ProverSetup.derived]
    module
  · simp only [ProverSetup.derived]
    module

omit [DecidableEq F] [DecidableEq G1] [DecidableEq G2] in
variable (g1First) in
theorem sigma2_accepted (tr : Transcript S F G1 G2 GT) (hv : setup.Valid pair m)
    (h2 : setup.g2Vec[0]? = .some g2First) (random : F × F) (e1 : G1) (rE1 rD2 : F) (t : S) :
    ∃ proof t', generateSigma2Proof tr random pair rE1 (-rD2) setup t = .ok (proof, t') ∧
      verifySigma2Proof tr pair (e1 + rE1 • setup.h1) (pair e1 g2First + rD2 • setup.ht) proof
        (setup.derived pair m g1First g2First) t = .ok t' := by
  rw [generateSigma2Proof]
  simp only [h2, Outcome.ofOption_some, Outcome.ok_bind, Outcome.pure_eq]
  refine ⟨_, _, rfl, ?_⟩
  rw [verifySigma2Proof]
  refine Outcome.check_bind ?_ rfl
  simp only [ProverSetup.derived, hv.ht_eq, map_add, map_smul, LinearMap.add_apply, LinearMap.smul_apply]
  module

end Sigma

/-! ## Evaluation proofs -/

section Opening

variable [DecidableEq G1] [DecidableEq G2] [DecidableEq GT] {tr : Transcript S F G1 G2 GT}
  {pair : G1 →ₗ[F] G2 →ₗ[F] GT} {setup : ProverSetup G1 G2 GT} {poly : ArkworksPolynomial F} {point : List F}
  {m nu sigma : Nat} {g1First : G1} {g2First : G2} (π : BuildProfile)

omit [DecidableEq F] [DecidableEq G1] [DecidableEq G2] [DecidableEq GT] in
theorem rowsAndBlind_eq (hv : setup.Valid pair m) (hvars : poly.numVars = nu + sigma) (hle : nu ≤ sigma)
    (hsigma : sigma ≤ m) (mode cm : Mode) (random r : F) {given : Option (List G1)} {cb : F}
    (hgiven : given = .some (poly.rows setup.g1Vec nu sigma) ∧ cb = cm.sample r ∨
      given = .none ∧ cm = mode ∧ r = random) :
    rowsAndBlind mode random pair poly given cb nu sigma setup =
      .ok (poly.rows setup.g1Vec nu sigma, cm.sample r) := by
  obtain ⟨rfl, rfl⟩ | ⟨rfl, rfl, rfl⟩ := hgiven
  · rfl
  · rw [rowsAndBlind, ArkworksPolynomial.commit_eq hv hvars (hle.trans hsigma) hsigma]
    rfl

omit [DecidableEq F] in
variable (tr) in
/-- What the two modes make and check before the rounds. -/
theorem zkParts_accepted (hv : setup.Valid pair m) (h1 : setup.g1Vec[0]? = .some g1First)
    (h2 : setup.g2Vec[0]? = .some g2First) (mode : Mode) (random : ProverRandomness F) {y : F}
    (hy : poly.evaluate point = .ok y) (rE1 rD2 : F) {e1 : G1} {d2 : GT} {e : G1} (he1 : e1 = e + rE1 • setup.h1)
    (hd2 : d2 = pair e g2First + rD2 • setup.ht) (t : S) :
    ∃ parts t', zkParts tr mode random pair poly point rD2 rE1 (mode.sample random.rE2) g2First setup t =
        .ok (parts, t') ∧
      ∀ proof : DoryProof F G1 G2 GT, proof.e2 = parts.e2 → proof.yCom = parts.yCom →
        proof.sigma1Proof = parts.sigma1 → proof.sigma2Proof = parts.sigma2 → proof.vmvMessage.e1 = e1 →
        proof.vmvMessage.d2 = d2 →
        verifyZkParts tr pair y proof (setup.derived pair m g1First g2First) t =
          .ok (y • g2First + mode.sample random.rE2 • setup.h2, mode.blinding, t') := by
  subst he1 hd2
  cases mode with
  | transparent =>
    refine ⟨_, _, rfl, fun proof he2 hyCom hs1 hs2 _ _ => ?_⟩
    rw [verifyZkParts, he2, hyCom]
    simp [Mode.sample, Mode.blinding, ProverSetup.derived]
  | zk =>
    obtain ⟨s1, t1, hs1, hv1⟩ := sigma1_accepted (m := m) pair tr h1 h2 random.sigma1 y random.rE2 random.rY
      (tr.appendSerde (tr.appendSerde t "vmv_e2" (.g2 (y • g2First + random.rE2 • setup.h2))) "vmv_y_com"
        (.g1 (y • g1First + random.rY • setup.h1)))
    obtain ⟨s2, t2, hs2, hv2⟩ := sigma2_accepted g1First tr hv h2 random.sigma2 e rE1 rD2 t1
    refine ⟨⟨.some (y • g2First + random.rE2 • setup.h2), .some (y • g1First + random.rY • setup.h1), .some s1,
      .some s2, .some random.rY⟩, t2, ?_, fun proof he2 hyCom hp1 hp2 hm1 hm2 => ?_⟩
    · simp only [zkParts, Mode.blinding, if_true, hy, h1, Outcome.ok_bind, Outcome.ofOption_some, Mode.sample,
        Mode.mask, hs1, hs2, Outcome.pure_eq]
    · rw [verifyZkParts, he2, hyCom]
      simp only [hp1, hp2, hm1, hm2, hv1, hv2, Outcome.ok_bind, Outcome.pure_eq]
      rfl

omit [DecidableEq F] [DecidableEq G1] [DecidableEq G2] [DecidableEq GT] in
variable (tr) in
theorem productPart_ok (h1 : setup.g1Vec[0]? = .some g1First) (h2 : setup.g2Vec[0]? = .some g2First) (mode : Mode)
    (random : ProverRandomness F) {p : DoryProverState F G1 G2} {v : DoryVerifierState F G1 G2 GT}
    (hl : Linked pair setup p v 0) (t : S) : ∃ sp t', productPart tr mode random pair setup p t = .ok (sp, t') := by
  obtain ⟨a, b, ha, hb, _, _⟩ := hl.singletons
  cases mode with
  | transparent => exact ⟨_, _, rfl⟩
  | zk =>
    simp only [productPart, Mode.blinding, if_true, DoryProverState.scalarProductProof, ha, hb, h1, h2,
      List.getElem?_cons_zero, Outcome.ofOption_some, Outcome.ok_bind, Outcome.pure_eq]
    exact ⟨_, _, rfl⟩

omit [DecidableEq G1] [DecidableEq G2] in
variable (tr) in
/-- What the two modes make and check after the rounds, whatever the final message is. -/
theorem productPart_accepted (hv : setup.Valid pair m) (h1 : setup.g1Vec[0]? = .some g1First)
    (h2 : setup.g2Vec[0]? = .some g2First) (mode : Mode) (random : ProverRandomness F)
    {p : DoryProverState F G1 G2} {v : DoryVerifierState F G1 G2 GT} (hl : Linked pair setup p v 0)
    (hblind : mode = .transparent → p.Unblinded) (hvmv : mode = .transparent → v.d2Init = pair v.e1Init g2First)
    {gamma : F} (hgamma : gamma ≠ 0) (t : S) :
    ∃ sp t' zk msg p', productPart tr mode random pair setup p t = .ok (sp, t') ∧
      p.computeFinalMessage mode setup random.final gamma = .ok (msg, p') ∧
      (∀ proof : DoryProof F G1 G2 GT, proof.scalarProductProof = sp →
        zkData tr mode.blinding proof t = .ok (zk, t')) ∧
      ∀ d, v.verifyFinal pair (setup.derived pair m g1First g2First) msg gamma d zk =
        if d = 0 then .error .invalidProof else .ok () := by
  obtain ⟨a, b, ha, hb, _, _⟩ := hl.singletons
  obtain ⟨p', hmsg⟩ := hl.computeFinalMessage_eq ha hb mode random.final hgamma
  cases mode with
  | transparent =>
    refine ⟨.none, t, .none, _, p', rfl, hmsg, fun _ _ => rfl, fun d => ?_⟩
    by_cases hd : d = 0
    · rw [if_pos hd, hd, Linked.verifyFinal_zero]
    · have haccept := hl.verifyFinal_transparent hv h1 h2 (hblind rfl) ha hb (hvmv rfl) hgamma hd
      simp only [Mode.sample, add_zero, if_neg hd]
      exact haccept
  | zk =>
    obtain ⟨sp, hsp, haccept⟩ := hl.verifyFinal_zk (m := m) tr h1 h2 random t
    have hpart : productPart tr .zk random pair setup p t =
        .ok (.some sp, tr.drawn (tr.absorbProduct t sp.p1 sp.p2 sp.q sp.r) "sigma_c") := by
      simp only [productPart, Mode.blinding, if_true, hsp, Outcome.ok_bind, Outcome.pure_eq]
    refine ⟨_, _, .some (sp, tr.challenge (tr.absorbProduct t sp.p1 sp.p2 sp.q sp.r) "sigma_c"), _, p', hpart, hmsg,
      fun proof hproof => ?_, fun d => ?_⟩
    · simp only [zkData, Mode.blinding, if_true, hproof]
      rfl
    · by_cases hd : d = 0
      · rw [if_pos hd, hd, Linked.verifyFinal_zero]
      · rw [if_neg hd, haccept _ _ _ hd]

omit [DecidableEq F] [DecidableEq G1] [DecidableEq G2] [DecidableEq GT] in
/-- The shapes that a setup is large enough for do not overflow. -/
theorem addUsize_of_setup (hv : setup.Valid pair m) (hle : nu ≤ sigma) (hsigma : sigma ≤ m) :
    π.addUsize nu sigma = .some (nu + sigma) := by
  have hwidth := hv.lt_width
  exact π.addUsize_of_lt (by omega)

omit [DecidableEq F] [DecidableEq G1] [DecidableEq G2] [DecidableEq GT] in
variable (tr) in
/-- An honest run enters its rounds with the rows of the polynomial's commitment. -/
theorem evaluationStart_eq (hv : setup.Valid pair m) (h2 : setup.g2Vec[0]? = .some g2First)
    (hvars : poly.numVars = nu + sigma) (hpoint : point.length = nu + sigma) (hle : nu ≤ sigma) (hsigma : sigma ≤ m)
    (mode cm : Mode) (random : ProverRandomness F) {r : F} {given : Option (List G1)} {cb : F}
    (hgiven : given = .some (poly.rows setup.g1Vec nu sigma) ∧ cb = cm.sample r ∨
      given = .none ∧ cm = mode ∧ r = random.commit) (t : S) :
    let left := tensorBasis (point.drop sigma)
    let v := poly.vectorMatrixProduct left nu sigma
    let rows := poly.rows setup.g1Vec nu sigma
    let padded := rows ++ List.replicate (2 ^ sigma - 2 ^ nu) 0
    let vmvMessage : VMVMessage G1 GT :=
      { c := pair (msm padded v) g2First + mode.sample random.rC • setup.ht
        d2 := pair (msm (setup.g1Vec.take (2 ^ sigma)) v) g2First + mode.sample random.rD2 • setup.ht
        e1 := msm rows left + mode.sample random.rE1 • setup.h1 }
    evaluationStart tr mode pair setup π random poly point given cb nu sigma t =
      zkParts tr mode random pair poly point (mode.sample random.rD2) (mode.sample random.rE1)
          (mode.sample random.rE2) g2First setup (tr.absorbVmv t vmvMessage) >>= fun parts =>
        .ok (vmvMessage, parts.1,
          (DoryProverState.new padded (DoryRoutines.fixedBaseVectorScalarMul g2First v) (.some v)
              (tensorBasis (point.take sigma)) (left ++ List.replicate (2 ^ sigma - 2 ^ nu) 0)).setInitialBlinds
            (cm.sample r) (mode.sample random.rC) (mode.sample random.rD2) (mode.sample random.rE1)
            (mode.sample random.rE2), parts.2) := by
  have hcols : (point.take sigma).length = sigma := by simp [hpoint]
  have hrowCoords : (point.drop sigma).length = nu := by simp [hpoint]
  have hrows : (poly.rows setup.g1Vec nu sigma).length = 2 ^ nu := poly.length_rows ..
  have hleft : (tensorBasis (point.drop sigma)).length = 2 ^ nu := by rw [length_tensorBasis, hrowCoords]
  have hright : (tensorBasis (point.take sigma)).length = 2 ^ sigma := by rw [length_tensorBasis, hcols]
  have hg1 := (hv.pow_le hsigma).1
  have hpow : 2 ^ nu ≤ 2 ^ sigma := Nat.pow_le_pow_right (by omega) hle
  have hcolumns : (poly.vectorMatrixProduct (tensorBasis (point.drop sigma)) nu sigma).length = 2 ^ sigma := by
    simp [ArkworksPolynomial.vectorMatrixProduct, Nat.one_shiftLeft]
  have hpadded : (poly.rows setup.g1Vec nu sigma ++ List.replicate (2 ^ sigma - 2 ^ nu) 0).length = 2 ^ sigma := by
    rw [List.length_append, List.length_replicate, hrows]
    omega
  have hgens : (setup.g1Vec.take (2 ^ sigma)).length = 2 ^ sigma := by simp [hg1]
  intro left v rows padded vmvMessage
  rw [evaluationStart]
  simp only [addUsize_of_setup π hv hle hsigma, Outcome.check_true hpoint, Outcome.check_true hle, Outcome.ok_bind,
    Nat.one_shiftLeft, rowsAndBlind_eq hv hvars hle hsigma mode cm random.commit r hgiven, computeLeftRightVectors_eq hpoint,
    padded_eq (0 : G1) hrows hle, padded_eq (0 : F) hleft hle, unpadded_eq (0 : F) hright, h2, Outcome.ofOption_some,
    sliceTo_ok hg1, Mode.mask_sample, DoryRoutines.msm_ok (hpadded.trans hcolumns.symm),
    DoryRoutines.msm_ok (hgens.trans hcolumns.symm), DoryRoutines.msm_ok (hrows.trans hleft.symm)]
  rfl

variable (tr) in
/-- An honest run with the rows of the polynomial's commitment and its blind: it stops exactly where it
draws a zero, and the verifier accepts what it makes else. -/
theorem honest_run (hv : setup.Valid pair m) (h1 : setup.g1Vec[0]? = .some g1First)
    (h2 : setup.g2Vec[0]? = .some g2First) (hvars : poly.numVars = nu + sigma) (hpoint : point.length = nu + sigma)
    (hle : nu ≤ sigma) (hsigma : sigma ≤ m) (mode cm : Mode) (random : ProverRandomness F) {r : F}
    (hmode : mode = .transparent → cm = .transparent) {given : Option (List G1)} {cb : F}
    (hgiven : given = .some (poly.rows setup.g1Vec nu sigma) ∧ cb = cm.sample r ∨
      given = .none ∧ cm = mode ∧ r = random.commit) {y : F} (hy : poly.evaluate point = .ok y) (t : S) :
    (createEvaluationProof tr π mode random pair poly point given cb nu sigma setup t = .panic ∧
        DrawsZero tr mode pair setup π random poly point given cb nu sigma t) ∨
      ¬ DrawsZero tr mode pair setup π random poly point given cb nu sigma t ∧
      ∃ proof yBlind t', createEvaluationProof tr π mode random pair poly point given cb nu sigma setup t =
          .ok ((proof, yBlind), tr.drawn t' "d") ∧
        verifyEvaluationProof tr π pair
            (dot pair (poly.rows setup.g1Vec nu sigma) (setup.g2Vec.take (2 ^ nu)) + cm.sample r • setup.ht) y point
            proof (setup.derived pair m g1First g2First) t =
          if tr.challenge t' "d" = 0 then .error .invalidProof else .ok (tr.drawn t' "d") := by
  have hleft : (tensorBasis (point.drop sigma)).length = 2 ^ nu := by
    rw [length_tensorBasis, List.length_drop, hpoint, Nat.add_sub_cancel]
  have hvalue := ArkworksPolynomial.evaluate_eq hvars hpoint
  obtain rfl : y = _ := by simpa [hy] using hvalue
  have hlink := linked_new poly hv hpoint hle hsigma h2 (cm.sample r) (mode.sample random.rC)
    (mode.sample random.rD2) (mode.sample random.rE1) (mode.sample random.rE2)
  have hstart := evaluationStart_eq tr π hv h2 hvars hpoint hle hsigma mode cm random hgiven t
  dsimp only at hlink hstart
  have hmsm : msm (poly.rows setup.g1Vec nu sigma) (tensorBasis (point.drop sigma)) =
      msm (setup.g1Vec.take (2 ^ sigma)) (poly.vectorMatrixProduct (tensorBasis (point.drop sigma)) nu sigma) :=
    ArkworksPolynomial.msm_rows hleft
  generalize poly.vectorMatrixProduct (tensorBasis (point.drop sigma)) nu sigma = v at *
  generalize hc : pair (msm (poly.rows setup.g1Vec nu sigma ++ List.replicate (2 ^ sigma - 2 ^ nu) 0) v) g2First +
    mode.sample random.rC • setup.ht = c at *
  generalize hd2 : pair (msm (setup.g1Vec.take (2 ^ sigma)) v) g2First + mode.sample random.rD2 • setup.ht = d2 at *
  generalize he1 : msm (poly.rows setup.g1Vec nu sigma) (tensorBasis (point.drop sigma)) +
    mode.sample random.rE1 • setup.h1 = e1 at *
  obtain ⟨parts, t1, hparts, hcheck⟩ := zkParts_accepted tr hv h1 h2 mode random hy (mode.sample random.rE1)
    (mode.sample random.rD2) he1.symm (by rw [hmsm, hd2]) (tr.absorbVmv t { c := c, d2 := d2, e1 := e1 })
  rw [hparts, Outcome.ok_bind] at hstart
  have hmaxRounds : max nu sigma = sigma := Nat.max_eq_right hle
  obtain ⟨-, label, t', hdraws, hzero⟩ | ⟨firsts, seconds, p', v', t2, hprove, hfirsts, hseconds, hverify, hlinked,
    he1', hd2', hblind⟩ := proveRounds_linked tr g1First g2First hv mode random.rounds hsigma 0 t1 hlink
  · have hz : DrawsZero tr mode pair setup π random poly point given cb nu sigma t :=
      ⟨label, t', .round hstart (by rwa [hmaxRounds]), hzero⟩
    exact .inl ⟨hz.panic, hz⟩
  by_cases hgamma : tr.challenge t2 "gamma" = 0
  · have hz : DrawsZero tr mode pair setup π random poly point given cb nu sigma t :=
      ⟨"gamma", t2, .gamma hstart (by rwa [hmaxRounds]), hgamma⟩
    exact .inl ⟨hz.panic, hz⟩
  have hunblinded : mode = .transparent → p'.Unblinded := by
    rintro hm
    refine hblind hm ⟨?_, ?_, ?_, ?_, ?_⟩ <;>
      simp [DoryProverState.new, DoryProverState.setInitialBlinds, hm, hmode hm, Mode.sample]
  have hvmv : mode = .transparent → v'.d2Init = pair v'.e1Init g2First := by
    rintro hm
    rw [he1', hd2', DoryVerifierState.new]
    simp only [← hd2, ← he1, ← hmsm, hm, Mode.sample, zero_smul, add_zero]
  obtain ⟨sp, t3, zk, msg, p'', hsp, hmsg, hzk, hfinal⟩ := productPart_accepted tr hv h1 h2 mode random hlinked
    hunblinded hvmv hgamma (tr.drawn t2 "gamma")
  have hcreate : createEvaluationProof tr π mode random pair poly point given cb nu sigma setup t = .ok (({
      vmvMessage := { c, d2, e1 }, firstMessages := firsts, secondMessages := seconds, finalMessage := msg, nu, sigma
      e2 := parts.e2
      yCom := parts.yCom
      sigma1Proof := parts.sigma1
      sigma2Proof := parts.sigma2
      scalarProductProof := sp }, parts.rY), tr.drawn (tr.absorbFinal t3 msg) "d") := by
    rw [createEvaluationProof, evaluationProof_eq, hstart, Outcome.ok_bind, evaluationRounds]
    simp only [hmaxRounds, hprove, hsp, hmsg, Outcome.ok_bind, Outcome.pure_eq]
  refine .inr ⟨fun hz => ?_, _, _, _, hcreate, ?_⟩
  · rw [hz.panic] at hcreate
    cases hcreate
  have hmax : ¬ (sigma > m * 2 / 2 ∨ firsts.length ≠ sigma ∨ seconds.length ≠ sigma) := by omega
  have hslice : (point.take (sigma + nu)).drop sigma = point.drop sigma := by
    rw [List.take_of_length_le (by omega)]
  have hwidth := hv.lt_width
  have hadd := π.addUsize_of_lt (show sigma + nu < 2 ^ 64 by omega)
  rw [verifyEvaluationProof]
  simp only [addUsize_of_setup π hv hle hsigma, Outcome.ofOption_some, Outcome.check_true hpoint, Outcome.ok_bind]
  rw [hcheck _ rfl rfl rfl rfl rfl rfl]
  have hmaxLogN : (setup.derived pair m g1First g2First).maxLogN = m * 2 := rfl
  simp only [Outcome.ok_bind, hmaxLogN, Outcome.check_true hmax, hadd, Outcome.ofOption_some, sliceTo_ok (show sigma ≤ point.length by omega),
    slice_ok (show sigma ≤ sigma + nu by omega) (show sigma + nu ≤ point.length by omega), hslice,
    Outcome.assert_true hle, hverify, hzk, hfinal]
  split <;> rfl

variable (tr) in
/-- **An honest evaluation proof is accepted.** Over a valid setup and a commitment to the polynomial,
the prover stops exactly where a challenge it draws and inverts is zero; the proof it makes passes the
verifier over the same transcript with the polynomial's value, in both modes, unless the last challenge
is zero. -/
theorem evaluation_proof_accepted (hv : setup.Valid pair m) (hvars : poly.numVars = nu + sigma)
    (hpoint : point.length = nu + sigma) (hle : nu ≤ sigma) (hsigma : sigma ≤ m) (mode cm : Mode)
    (random : ProverRandomness F) {r : F} {commitment : GT} {rows : List G1} {blind : F}
    (hcommit : poly.commit cm r pair nu sigma setup = .ok (commitment, rows, blind))
    (hmode : mode = .transparent → cm = .transparent) {given : Option (List G1)} {cb : F}
    (hgiven : given = .some rows ∧ cb = blind ∨ given = .none ∧ cm = mode ∧ r = random.commit)
    {vs : VerifierSetup G1 G2 GT} (hvs : setup.toVerifierSetup pair = .ok vs) {y : F}
    (hy : poly.evaluate point = .ok y) (t : S) :
    (createEvaluationProof tr π mode random pair poly point given cb nu sigma setup t = .panic ∧
        DrawsZero tr mode pair setup π random poly point given cb nu sigma t) ∨
      ¬ DrawsZero tr mode pair setup π random poly point given cb nu sigma t ∧
      ∃ proof yBlind t', createEvaluationProof tr π mode random pair poly point given cb nu sigma setup t =
          .ok ((proof, yBlind), tr.drawn t' "d") ∧
        verifyEvaluationProof tr π pair commitment y point proof vs t =
          if tr.challenge t' "d" = 0 then .error .invalidProof else .ok (tr.drawn t' "d") := by
  obtain ⟨g1First, g2First, h1, h2⟩ := hv.exists_first
  obtain rfl : setup.derived pair m g1First g2First = vs := by
    simpa [hv.toVerifierSetup_eq h1 h2] using hvs
  have hcommitted := ArkworksPolynomial.commit_eq hv hvars (hle.trans hsigma) hsigma cm r
  obtain ⟨rfl, rfl, rfl⟩ : commitment = _ ∧ rows = _ ∧ blind = _ := by simpa [hcommit] using hcommitted
  exact honest_run tr π hv h1 h2 hvars hpoint hle hsigma mode cm random hmode hgiven hy t

theorem evaluation_proof_accepted_two :
    let π : BuildProfile := { overflowChecks := true, debugAssertions := false }
    let pair := LinearMap.mul ℚ ℚ
    let setup : ProverSetup ℚ ℚ ℚ := .new pair 1 (fun i => i + 1) (fun i => i + 2) 5 7
    let tr : Transcript ℚ ℚ ℚ ℚ ℚ := { appendSerde := fun s _ _ => s + 1, challengeScalar := fun s _ => (1 + s * s, s) }
    let random : ProverRandomness ℚ :=
      { commit := 1, rC := 2, rD2 := 3, rE1 := 4, rE2 := 5, rY := 6, sigma1 := (7, 8, 9), sigma2 := (10, 11)
        rounds := fun _ => ⟨(1, 2), (3, 4), (5, 6), (7, 8), (9, 10)⟩, productD := (12, 13), productP := (14, 15)
        productQ := 16, productR := 17, final := (18, 19) }
    let poly : ArkworksPolynomial ℚ := { coefficients := [1, 2, 3, 4], numVars := 2, length_eq := rfl }
    ∃ vs proof yBlind t t', setup.toVerifierSetup pair = .ok vs ∧
      createEvaluationProof tr π .zk random pair poly [5, 6] (.some [5, 11]) 3 1 1 setup 0 = .ok ((proof, yBlind), t) ∧
      verifyEvaluationProof tr π pair 148 18 [5, 6] proof vs 0 = .ok t' := by
  intro π pair setup tr random poly
  have hv : setup.Valid pair 1 := ProverSetup.valid_new pair (by decide) _ _ _ _
  obtain ⟨g1First, g2First, h1, h2⟩ := hv.exists_first
  have hcommit : poly.commit .zk 3 pair 1 1 setup = .ok (148, [5, 11], 3) := by decide +kernel
  have hvs := hv.toVerifierSetup_eq h1 h2
  have hy : poly.evaluate [5, 6] = .ok 18 := by decide +kernel
  have hne (t : ℚ) (label : String) : tr.challenge t label ≠ 0 := by
    have hpos : (0 : ℚ) < 1 + t * t := add_pos_of_pos_of_nonneg one_pos (mul_self_nonneg t)
    exact hpos.ne'
  obtain ⟨_, label, t, _, hzero⟩ | ⟨_, proof, yBlind, t', hprove, hverify⟩ :=
    evaluation_proof_accepted tr π hv rfl rfl le_rfl le_rfl .zk .zk random hcommit (by simp)
      (.inl ⟨rfl, rfl⟩) hvs hy 0
  · exact absurd hzero (hne t label)
  · rw [if_neg (hne t' "d")] at hverify
    exact ⟨_, _, _, _, _, hvs, hprove, hverify⟩

end Opening

end LightningJolt.Dory
