/-
The states of the Dory opening protocol: the vectors a prover folds, the values a verifier
accumulates, and what one round of reduce and fold keeps between the two.
-/
import LightningJolt.DoryPolynomial

namespace LightningJolt.Dory

variable {F G1 G2 GT : Type} [Field F] [DecidableEq F] [AddCommGroup G1] [Module F G1] [AddCommGroup G2] [Module F G2]
  [AddCommGroup GT] [Module F GT]

/-! ## Messages -/

/-- `FirstReduceMessage`. -/
structure FirstReduceMessage (G1 G2 GT : Type) where
  d1Left : GT
  d1Right : GT
  d2Left : GT
  d2Right : GT
  e1Beta : G1
  e2Beta : G2
deriving DecidableEq

/-- `SecondReduceMessage`. -/
structure SecondReduceMessage (G1 G2 GT : Type) where
  cPlus : GT
  cMinus : GT
  e1Plus : G1
  e1Minus : G1
  e2Plus : G2
  e2Minus : G2
deriving DecidableEq

/-- `ScalarProductMessage`. -/
structure ScalarProductMessage (G1 G2 : Type) where
  e1 : G1
  e2 : G2
deriving DecidableEq

/-- `ScalarProductProof`. -/
structure ScalarProductProof (F G1 G2 GT : Type) where
  p1 : GT
  p2 : GT
  q : GT
  r : GT
  e1 : G1
  e2 : G2
  r1 : F
  r2 : F
  r3 : F
deriving DecidableEq

/-! ## The prover -/

/-- The scalars that the calls to `sample` of one round draw. -/
structure RoundRandomness (F : Type) where
  d1 : F × F
  d2 : F × F
  c : F × F
  e1 : F × F
  e2 : F × F

/-- `DoryProverState`, but for its setup and the blinds of the folding by four. -/
structure DoryProverState (F G1 G2 : Type) where
  v1 : List G1
  v2 : List G2
  v2Scalars : Option (List F)
  s1 : List F
  s2 : List F
  numRounds : Nat
  rC : F
  rD1 : F
  rD2 : F
  rE1 : F
  rE2 : F
  roundD1 : F × F
  roundD2 : F × F
  roundC : F × F
  roundE1 : F × F
  roundE2 : F × F

/-- A pair of blinds. -/
def Mode.samples (mode : Mode) (random : F × F) : F × F := (mode.sample random.1, mode.sample random.2)

namespace DoryProverState

/-- `new`. -/
def new (v1 : List G1) (v2 : List G2) (v2Scalars : Option (List F)) (s1 s2 : List F) : DoryProverState F G1 G2 where
  v1 := v1
  v2 := v2
  v2Scalars := v2Scalars
  s1 := s1
  s2 := s2
  numRounds := EqPolynomial.trailingZeros 64 v1.length
  rC := 0
  rD1 := 0
  rD2 := 0
  rE1 := 0
  rE2 := 0
  roundD1 := (0, 0)
  roundD2 := (0, 0)
  roundC := (0, 0)
  roundE1 := (0, 0)
  roundE2 := (0, 0)

/-- `set_initial_blinds`. -/
def setInitialBlinds (st : DoryProverState F G1 G2) (rD1 rC rD2 rE1 rE2 : F) : DoryProverState F G1 G2 :=
  { st with rD1, rC, rD2, rE1, rE2 }

variable (mode : Mode) (random : RoundRandomness F) (pair : G1 →ₗ[F] G2 →ₗ[F] GT) (setup : ProverSetup G1 G2 GT)

/-- The halves of `D₂` before they are masked: in the first round from the scalars of `v2`. -/
def d2Bases (st : DoryProverState F G1 G2) (n2 : Nat) (g1Prime : List G1) (v2l v2r : List G2) : Outcome (GT × GT) :=
  match st.v2Scalars with
  | .some scalars => do
    let (sl, sr) ← splitAt scalars n2
    let sumLeft ← DoryRoutines.msm g1Prime sl
    let sumRight ← DoryRoutines.msm g1Prime sr
    let g2Fin ← .ofOption setup.g2Vec[0]?
    return (pair sumLeft g2Fin, pair sumRight g2Fin)
  | .none => do
    let left ← multiPair pair g1Prime v2l
    let right ← multiPair pair g1Prime v2r
    return (left, right)

/-- `compute_first_message`. -/
def computeFirstMessage (st : DoryProverState F G1 G2) :
    Outcome (FirstReduceMessage G1 G2 GT × DoryProverState F G1 G2) := do
  .assert (0 < st.numRounds)
  let n2 := 1 <<< (st.numRounds - 1)
  let (v1l, v1r) ← splitAt st.v1 n2
  let (v2l, v2r) ← splitAt st.v2 n2
  let g1Prime ← sliceTo setup.g1Vec n2
  let g2Prime ← sliceTo setup.g2Vec n2
  let roundD1 := mode.samples random.d1
  let roundD2 := mode.samples random.d2
  let g1Full ← sliceTo setup.g1Vec (1 <<< st.numRounds)
  let g2Full ← sliceTo setup.g2Vec (1 <<< st.numRounds)
  let d1LeftBase ← multiPair pair v1l g2Prime
  let d1RightBase ← multiPair pair v1r g2Prime
  let (d2LeftBase, d2RightBase) ← st.d2Bases pair setup n2 g1Prime v2l v2r
  let e1Beta ← DoryRoutines.msm g1Full st.s2
  let e2Beta ← DoryRoutines.msm g2Full st.s1
  return ({
    d1Left := mode.mask d1LeftBase setup.ht roundD1.1
    d1Right := mode.mask d1RightBase setup.ht roundD1.2
    d2Left := mode.mask d2LeftBase setup.ht roundD2.1
    d2Right := mode.mask d2RightBase setup.ht roundD2.2
    e1Beta, e2Beta }, { st with roundD1, roundD2 })

/-- `apply_first_challenge`. -/
def applyFirstChallenge (st : DoryProverState F G1 G2) (beta : F) : Outcome (DoryProverState F G1 G2) := do
  let betaInv ← .ofOption (inv beta)
  let n := 1 <<< st.numRounds
  let v1 ← DoryRoutines.fixedScalarMulBasesThenAdd (← sliceTo setup.g1Vec n) st.v1 beta
  let v2 ← DoryRoutines.fixedScalarMulBasesThenAdd (← sliceTo setup.g2Vec n) st.v2 betaInv
  return { st with v1, v2, v2Scalars := .none, rC := st.rC + st.rD2 * beta + st.rD1 * betaInv }

/-- `compute_second_message`. -/
def computeSecondMessage (st : DoryProverState F G1 G2) :
    Outcome (SecondReduceMessage G1 G2 GT × DoryProverState F G1 G2) := do
  let n2 := 1 <<< (st.numRounds - 1)
  let (v1l, v1r) ← splitAt st.v1 n2
  let (v2l, v2r) ← splitAt st.v2 n2
  let (s1l, s1r) ← splitAt st.s1 n2
  let (s2l, s2r) ← splitAt st.s2 n2
  let roundC := mode.samples random.c
  let roundE1 := mode.samples random.e1
  let roundE2 := mode.samples random.e2
  let cPlusProd ← multiPair pair v1l v2r
  let cMinusProd ← multiPair pair v1r v2l
  let e1Plus ← DoryRoutines.msm v1l s2r
  let e1Minus ← DoryRoutines.msm v1r s2l
  let e2Plus ← DoryRoutines.msm v2r s1l
  let e2Minus ← DoryRoutines.msm v2l s1r
  return ({
    cPlus := mode.mask cPlusProd setup.ht roundC.1
    cMinus := mode.mask cMinusProd setup.ht roundC.2
    e1Plus := mode.mask e1Plus setup.h1 roundE1.1
    e1Minus := mode.mask e1Minus setup.h1 roundE1.2
    e2Plus := mode.mask e2Plus setup.h2 roundE2.1
    e2Minus := mode.mask e2Minus setup.h2 roundE2.2 }, { st with roundC, roundE1, roundE2 })

/-- `apply_second_challenge`. -/
def applySecondChallenge (st : DoryProverState F G1 G2) (alpha : F) : Outcome (DoryProverState F G1 G2) := do
  let alphaInv ← .ofOption (inv alpha)
  let n2 := 1 <<< (st.numRounds - 1)
  let (v1l, v1r) ← splitAt st.v1 n2
  let v1 ← DoryRoutines.fixedScalarMulVsThenAdd v1l v1r alpha
  let (v2l, v2r) ← splitAt st.v2 n2
  let v2 ← DoryRoutines.fixedScalarMulVsThenAdd v2l v2r alphaInv
  let (s1l, s1r) ← splitAt st.s1 n2
  let s1 ← DoryRoutines.foldFieldVectors s1l s1r alpha
  let (s2l, s2r) ← splitAt st.s2 n2
  let s2 ← DoryRoutines.foldFieldVectors s2l s2r alphaInv
  return { st with
    v1, v2, s1, s2
    rC := st.rC + st.roundC.1 * alpha + st.roundC.2 * alphaInv
    rD1 := st.roundD1.1 * alpha + st.roundD1.2
    rD2 := st.roundD2.1 * alphaInv + st.roundD2.2
    rE1 := st.rE1 + st.roundE1.1 * alpha + st.roundE1.2 * alphaInv
    rE2 := st.rE2 + st.roundE2.1 * alpha + st.roundE2.2 * alphaInv
    numRounds := st.numRounds - 1 }

/-- `compute_final_message`, with the two scalars it draws. -/
def computeFinalMessage (final : F × F) (st : DoryProverState F G1 G2) (gamma : F) :
    Outcome (ScalarProductMessage G1 G2 × DoryProverState F G1 G2) := do
  let gammaInv ← .ofOption (inv gamma)
  let gammaS1 := gamma * (← .ofOption st.s1[0]?) + mode.sample final.1
  let e1 := (← .ofOption st.v1[0]?) + gammaS1 • setup.h1
  let gammaInvS2 := gammaInv * (← .ofOption st.s2[0]?) + mode.sample final.2
  let e2 := (← .ofOption st.v2[0]?) + gammaInvS2 • setup.h2
  return ({ e1, e2 }, { st with rC := st.rC + st.rE2 * gamma + st.rE1 * gammaInv })

end DoryProverState

/-! ## The verifier -/

/-- `DoryVerifierState`, but for its setup. -/
structure DoryVerifierState (F G1 G2 GT : Type) where
  c : GT
  d1 : GT
  d2 : GT
  e1 : G1
  e2 : G2
  e1Init : G1
  d2Init : GT
  s1Acc : F
  s2Acc : F
  s1Coords : List F
  s2Coords : List F
  numRounds : Nat

namespace DoryVerifierState

/-- `new`. -/
def new (c d1 d2 : GT) (e1 : G1) (e2 : G2) (s1Coords s2Coords : List F) (numRounds : Nat) :
    DoryVerifierState F G1 G2 GT where
  c := c
  d1 := d1
  d2 := d2
  e1 := e1
  e2 := e2
  e1Init := e1
  d2Init := d2
  s1Acc := 1
  s2Acc := 1
  s1Coords := s1Coords
  s2Coords := s2Coords
  numRounds := numRounds

/-- `process_round`. -/
def processRound (setup : VerifierSetup G1 G2 GT) (st : DoryVerifierState F G1 G2 GT)
    (first : FirstReduceMessage G1 G2 GT) (second : SecondReduceMessage G1 G2 GT) (alpha beta : F) :
    Outcome (DoryVerifierState F G1 G2 GT) := do
  .check (st.numRounds ≠ 0) .invalidProof
  let alphaInv ← .okOr .invalidProof (inv alpha)
  let betaInv ← .okOr .invalidProof (inv beta)
  let alphaBeta := alpha * beta
  let alphaInvBetaInv := alphaInv * betaInv
  let round := st.numRounds
  let chiR ← .ofOption setup.chi[round]?
  let delta1lR ← .ofOption setup.delta1l[round]?
  let delta1rR ← .ofOption setup.delta1r[round]?
  let delta2lR ← .ofOption setup.delta2l[round]?
  let delta2rR ← .ofOption setup.delta2r[round]?
  let idx := round - 1
  let yT ← .ofOption st.s1Coords[idx]?
  let xT ← .ofOption st.s2Coords[idx]?
  return { st with
    c := st.c + chiR + beta • st.d2 + betaInv • st.d1 + alpha • second.cPlus + alphaInv • second.cMinus
    d1 := alpha • first.d1Left + first.d1Right + alphaBeta • delta1lR + beta • delta1rR
    d2 := alphaInv • first.d2Left + first.d2Right + alphaInvBetaInv • delta2lR + betaInv • delta2rR
    e1 := st.e1 + beta • first.e1Beta + alpha • second.e1Plus + alphaInv • second.e1Minus
    e2 := st.e2 + betaInv • first.e2Beta + alpha • second.e2Plus + alphaInv • second.e2Minus
    s1Acc := st.s1Acc * (alpha * (1 - yT) + yT)
    s2Acc := st.s2Acc * (alphaInv * (1 - xT) + xT)
    numRounds := st.numRounds - 1 }

/-- `verify_final`. -/
def verifyFinal [DecidableEq GT] (pair : G1 →ₗ[F] G2 →ₗ[F] GT) (setup : VerifierSetup G1 G2 GT)
    (st : DoryVerifierState F G1 G2 GT) (msg : ScalarProductMessage G1 G2) (gamma d : F)
    (zkData : Option (ScalarProductProof F G1 G2 GT × F)) : Outcome Unit := do
  let dInv ← .okOr .invalidProof (inv d)
  let chi0 ← .ofOption setup.chi[0]?
  match zkData with
  | .some (sp, c) =>
    let lhs := pair (sp.e1 + d • setup.g1First) (sp.e2 + dInv • setup.g2First)
    let htScalar := sp.r3 + d * sp.r2 + dInv * sp.r1
    let rhs := chi0 + sp.r + c • sp.q + (c * c) • st.c
    let rhs := rhs + d • sp.p2 + (d * c) • st.d2
    let rhs := rhs + dInv • sp.p1 + (dInv * c) • st.d1
    let rhs := rhs - htScalar • setup.ht
    .check (lhs = rhs) .invalidProof
  | .none =>
    let gammaInv ← .okOr .invalidProof (inv gamma)
    let dSq := d * d
    let sProduct := st.s1Acc * st.s2Acc
    let rhs := st.c + sProduct • setup.ht + chi0 + d • st.d2 + dInv • st.d1 + dSq • st.d2Init
    let p1g1 := msg.e1 + d • setup.g1First
    let p1g2 := msg.e2 + dInv • setup.g2First
    let p2g1 := setup.h1
    let p2g2 := (-gamma) • (st.e2 + (dInv * st.s1Acc) • setup.g2First)
    let p3g1 := (-gammaInv) • (st.e1 + (d * st.s2Acc) • setup.g1First)
    let p3g2 := setup.h2
    let p4g1 := dSq • st.e1Init
    let p4g2 := setup.g2First
    let lhs ← multiPair pair [p1g1, p2g1, p3g1, p4g1] [p1g2, p2g2, p3g2, p4g2]
    .check (lhs = rhs) .invalidProof

end DoryVerifierState

/-! ## The prover's steps -/

namespace DoryProverState

/-- The vectors have the length that the rounds left need, and `v2` the scalars kept beside it. -/
structure Shaped (setup : ProverSetup G1 G2 GT) (st : DoryProverState F G1 G2) (n : Nat) : Prop where
  numRounds_eq : st.numRounds = n
  length_v1 : st.v1.length = 2 ^ n
  length_v2 : st.v2.length = 2 ^ n
  length_s1 : st.s1.length = 2 ^ n
  length_s2 : st.s2.length = 2 ^ n
  scalars : ∀ ks, st.v2Scalars = .some ks → ∃ g2Fin, setup.g2Vec[0]? = .some g2Fin ∧ st.v2 = ks.map (· • g2Fin)

/-- No blind is other than zero. -/
structure Unblinded (st : DoryProverState F G1 G2) : Prop where
  rC_eq : st.rC = 0
  rD1_eq : st.rD1 = 0
  rD2_eq : st.rD2 = 0
  rE1_eq : st.rE1 = 0
  rE2_eq : st.rE2 = 0

variable {mode : Mode} {random : RoundRandomness F} {pair : G1 →ₗ[F] G2 →ₗ[F] GT} {setup : ProverSetup G1 G2 GT}
  {st : DoryProverState F G1 G2} {m n : Nat}

theorem two_pow_le_succ (n : Nat) : 2 ^ n ≤ 2 ^ (n + 1) := Nat.pow_le_pow_right (by omega) (by omega)

theorem length_halves {α : Type} {xs : List α} (h : xs.length = 2 ^ (n + 1)) :
    (xs.take (2 ^ n)).length = 2 ^ n ∧ (xs.drop (2 ^ n)).length = 2 ^ n := by
  rw [pow_succ] at h
  constructor <;> simp <;> omega

omit [DecidableEq F] in
theorem Shaped.d2Bases_eq (hs : st.Shaped setup (n + 1)) {g1Prime : List G1} (hg : g1Prime.length = 2 ^ n) :
    st.d2Bases pair setup (2 ^ n) g1Prime (st.v2.take (2 ^ n)) (st.v2.drop (2 ^ n)) =
      .ok (dot pair g1Prime (st.v2.take (2 ^ n)), dot pair g1Prime (st.v2.drop (2 ^ n))) := by
  rw [d2Bases]
  cases hks : st.v2Scalars with
  | none =>
    obtain ⟨hl, hr⟩ := length_halves hs.length_v2
    simp only [multiPair_ok (hg.trans hl.symm), multiPair_ok (hg.trans hr.symm), Outcome.ok_bind, Outcome.pure_eq]
  | some ks =>
    obtain ⟨g2Fin, hfin, hv2⟩ := hs.scalars ks hks
    have hlen : ks.length = 2 ^ (n + 1) := by rw [← hs.length_v2, hv2, List.length_map]
    obtain ⟨hl, hr⟩ := length_halves hlen
    simp only [splitAt_ok (hlen ▸ two_pow_le_succ n), DoryRoutines.msm_ok (hg.trans hl.symm),
      DoryRoutines.msm_ok (hg.trans hr.symm), hfin, Outcome.ofOption_some, Outcome.ok_bind, Outcome.pure_eq,
      apply_msm, hv2, List.map_take, List.map_drop]

omit [DecidableEq F] in
theorem Shaped.computeFirstMessage_eq (hv : setup.Valid pair m) (hs : st.Shaped setup (n + 1)) (hn : n < m) :
    st.computeFirstMessage mode random pair setup = .ok ({
      d1Left := dot pair (st.v1.take (2 ^ n)) (setup.g2Vec.take (2 ^ n)) + (mode.samples random.d1).1 • setup.ht
      d1Right := dot pair (st.v1.drop (2 ^ n)) (setup.g2Vec.take (2 ^ n)) + (mode.samples random.d1).2 • setup.ht
      d2Left := dot pair (setup.g1Vec.take (2 ^ n)) (st.v2.take (2 ^ n)) + (mode.samples random.d2).1 • setup.ht
      d2Right := dot pair (setup.g1Vec.take (2 ^ n)) (st.v2.drop (2 ^ n)) + (mode.samples random.d2).2 • setup.ht
      e1Beta := msm (setup.g1Vec.take (2 ^ (n + 1))) st.s2
      e2Beta := msm (setup.g2Vec.take (2 ^ (n + 1))) st.s1 },
      { st with roundD1 := mode.samples random.d1, roundD2 := mode.samples random.d2 }) := by
  obtain ⟨hg1, hg2⟩ := hv.pow_le (k := n) (by omega)
  obtain ⟨hg1', hg2'⟩ := hv.pow_le (k := n + 1) (by omega)
  obtain ⟨hv1l, hv1r⟩ := length_halves hs.length_v1
  have hlen1 : (setup.g1Vec.take (2 ^ n)).length = 2 ^ n := by simp [hg1]
  have hlen2 : (setup.g2Vec.take (2 ^ n)).length = 2 ^ n := by simp [hg2]
  have hfull1 : (setup.g1Vec.take (2 ^ (n + 1))).length = 2 ^ (n + 1) := by simp [hg1']
  have hfull2 : (setup.g2Vec.take (2 ^ (n + 1))).length = 2 ^ (n + 1) := by simp [hg2']
  rw [computeFirstMessage]
  simp only [hs.numRounds_eq, Nat.one_shiftLeft, Nat.add_sub_cancel, Outcome.assert_true (Nat.succ_pos n),
    Outcome.ok_bind, splitAt_ok (hs.length_v1 ▸ two_pow_le_succ n), splitAt_ok (hs.length_v2 ▸ two_pow_le_succ n),
    sliceTo_ok hg1, sliceTo_ok hg2, sliceTo_ok hg1', sliceTo_ok hg2', multiPair_ok (hv1l.trans hlen2.symm),
    multiPair_ok (hv1r.trans hlen2.symm), hs.d2Bases_eq hlen1, DoryRoutines.msm_ok (hfull1.trans hs.length_s2.symm),
    DoryRoutines.msm_ok (hfull2.trans hs.length_s1.symm), Outcome.pure_eq, Mode.samples, Mode.mask_sample]

theorem Shaped.applyFirstChallenge_eq (hv : setup.Valid pair m) (hs : st.Shaped setup n) (hn : n ≤ m) {beta : F}
    (hbeta : beta ≠ 0) :
    st.applyFirstChallenge setup beta = .ok { st with
      v1 := axpy beta (setup.g1Vec.take (2 ^ n)) st.v1
      v2 := axpy beta⁻¹ (setup.g2Vec.take (2 ^ n)) st.v2
      v2Scalars := .none
      rC := st.rC + st.rD2 * beta + st.rD1 * beta⁻¹ } := by
  obtain ⟨hg1, hg2⟩ := hv.pow_le hn
  have hlen1 : (setup.g1Vec.take (2 ^ n)).length = st.v1.length := by simp [hg1, hs.length_v1]
  have hlen2 : (setup.g2Vec.take (2 ^ n)).length = st.v2.length := by simp [hg2, hs.length_v2]
  rw [applyFirstChallenge]
  simp only [inv_of_ne hbeta, Outcome.ofOption_some, Outcome.ok_bind, hs.numRounds_eq, Nat.one_shiftLeft,
    sliceTo_ok hg1, sliceTo_ok hg2, DoryRoutines.fixedScalarMulBasesThenAdd_ok hlen1,
    DoryRoutines.fixedScalarMulBasesThenAdd_ok hlen2, Outcome.pure_eq]

omit [AddCommGroup GT] [Module F GT] in
theorem applyFirstChallenge_zero : st.applyFirstChallenge setup 0 = .panic := by
  simp [applyFirstChallenge]

omit [DecidableEq F] in
theorem Shaped.computeSecondMessage_eq (hs : st.Shaped setup (n + 1)) :
    st.computeSecondMessage mode random pair setup = .ok ({
      cPlus := dot pair (st.v1.take (2 ^ n)) (st.v2.drop (2 ^ n)) + (mode.samples random.c).1 • setup.ht
      cMinus := dot pair (st.v1.drop (2 ^ n)) (st.v2.take (2 ^ n)) + (mode.samples random.c).2 • setup.ht
      e1Plus := msm (st.v1.take (2 ^ n)) (st.s2.drop (2 ^ n)) + (mode.samples random.e1).1 • setup.h1
      e1Minus := msm (st.v1.drop (2 ^ n)) (st.s2.take (2 ^ n)) + (mode.samples random.e1).2 • setup.h1
      e2Plus := msm (st.v2.drop (2 ^ n)) (st.s1.take (2 ^ n)) + (mode.samples random.e2).1 • setup.h2
      e2Minus := msm (st.v2.take (2 ^ n)) (st.s1.drop (2 ^ n)) + (mode.samples random.e2).2 • setup.h2 },
      { st with
        roundC := mode.samples random.c, roundE1 := mode.samples random.e1, roundE2 := mode.samples random.e2 }) := by
  obtain ⟨hv1l, hv1r⟩ := length_halves hs.length_v1
  obtain ⟨hv2l, hv2r⟩ := length_halves hs.length_v2
  obtain ⟨hs1l, hs1r⟩ := length_halves hs.length_s1
  obtain ⟨hs2l, hs2r⟩ := length_halves hs.length_s2
  rw [computeSecondMessage]
  simp only [hs.numRounds_eq, Nat.one_shiftLeft, Nat.add_sub_cancel, Outcome.ok_bind,
    splitAt_ok (hs.length_v1 ▸ two_pow_le_succ n), splitAt_ok (hs.length_v2 ▸ two_pow_le_succ n),
    splitAt_ok (hs.length_s1 ▸ two_pow_le_succ n), splitAt_ok (hs.length_s2 ▸ two_pow_le_succ n),
    multiPair_ok (hv1l.trans hv2r.symm), multiPair_ok (hv1r.trans hv2l.symm),
    DoryRoutines.msm_ok (hv1l.trans hs2r.symm), DoryRoutines.msm_ok (hv1r.trans hs2l.symm),
    DoryRoutines.msm_ok (hv2r.trans hs1l.symm), DoryRoutines.msm_ok (hv2l.trans hs1r.symm), Outcome.pure_eq,
    Mode.samples, Mode.mask_sample]

omit [AddCommGroup GT] [Module F GT] in
theorem Shaped.applySecondChallenge_eq (hs : st.Shaped setup (n + 1)) {alpha : F} (halpha : alpha ≠ 0) :
    st.applySecondChallenge alpha = .ok { st with
      v1 := axpy alpha (st.v1.take (2 ^ n)) (st.v1.drop (2 ^ n))
      v2 := axpy alpha⁻¹ (st.v2.take (2 ^ n)) (st.v2.drop (2 ^ n))
      s1 := axpy alpha (st.s1.take (2 ^ n)) (st.s1.drop (2 ^ n))
      s2 := axpy alpha⁻¹ (st.s2.take (2 ^ n)) (st.s2.drop (2 ^ n))
      rC := st.rC + st.roundC.1 * alpha + st.roundC.2 * alpha⁻¹
      rD1 := st.roundD1.1 * alpha + st.roundD1.2
      rD2 := st.roundD2.1 * alpha⁻¹ + st.roundD2.2
      rE1 := st.rE1 + st.roundE1.1 * alpha + st.roundE1.2 * alpha⁻¹
      rE2 := st.rE2 + st.roundE2.1 * alpha + st.roundE2.2 * alpha⁻¹
      numRounds := n } := by
  obtain ⟨hv1l, hv1r⟩ := length_halves hs.length_v1
  obtain ⟨hv2l, hv2r⟩ := length_halves hs.length_v2
  obtain ⟨hs1l, hs1r⟩ := length_halves hs.length_s1
  obtain ⟨hs2l, hs2r⟩ := length_halves hs.length_s2
  rw [applySecondChallenge]
  simp only [inv_of_ne halpha, Outcome.ofOption_some, hs.numRounds_eq, Nat.one_shiftLeft, Nat.add_sub_cancel,
    Outcome.ok_bind, splitAt_ok (hs.length_v1 ▸ two_pow_le_succ n), splitAt_ok (hs.length_v2 ▸ two_pow_le_succ n),
    splitAt_ok (hs.length_s1 ▸ two_pow_le_succ n), splitAt_ok (hs.length_s2 ▸ two_pow_le_succ n),
    DoryRoutines.fixedScalarMulVsThenAdd_ok (hv1l.trans hv1r.symm),
    DoryRoutines.fixedScalarMulVsThenAdd_ok (hv2l.trans hv2r.symm),
    DoryRoutines.foldFieldVectors_ok (hs1l.trans hs1r.symm), DoryRoutines.foldFieldVectors_ok (hs2l.trans hs2r.symm),
    Outcome.pure_eq]

theorem applySecondChallenge_zero : st.applySecondChallenge 0 = .panic := by
  simp [applySecondChallenge]

end DoryProverState

/-! ## What a round keeps -/

omit [DecidableEq F] in
/-- A scaled basis folds into the basis of the coordinates before the last, scaled once more. -/
theorem fold_tensorBasis (k acc y : F) (coords : List F) :
    axpy k (((tensorBasis (coords ++ [y])).map (acc * ·)).take (2 ^ coords.length))
      (((tensorBasis (coords ++ [y])).map (acc * ·)).drop (2 ^ coords.length)) =
      (tensorBasis coords).map (acc * (k * (1 - y) + y) * ·) := by
  have hlen : ((tensorBasis coords).map (· * (1 - y))).length = 2 ^ coords.length := by simp
  rw [← List.map_take, ← List.map_drop, tensorBasis_snoc, List.take_left' hlen, List.drop_left' hlen, axpy,
    List.map_map, List.map_map, List.zipWith_map, List.zipWith_self]
  refine List.map_congr_left fun x _ => ?_
  simp only [Function.comp_apply, smul_eq_mul]
  ring

/-- **The prover's vectors open the verifier's values**, with as many rounds left. -/
structure Linked (pair : G1 →ₗ[F] G2 →ₗ[F] GT) (setup : ProverSetup G1 G2 GT) (p : DoryProverState F G1 G2)
    (v : DoryVerifierState F G1 G2 GT) (n : Nat) : Prop where
  shaped : p.Shaped setup n
  numRounds_eq : v.numRounds = n
  c_eq : v.c = dot pair p.v1 p.v2 + p.rC • setup.ht
  d1_eq : v.d1 = dot pair p.v1 (setup.g2Vec.take (2 ^ n)) + p.rD1 • setup.ht
  d2_eq : v.d2 = dot pair (setup.g1Vec.take (2 ^ n)) p.v2 + p.rD2 • setup.ht
  e1_eq : v.e1 = msm p.v1 p.s2 + p.rE1 • setup.h1
  e2_eq : v.e2 = msm p.v2 p.s1 + p.rE2 • setup.h2
  length_s1Coords : n ≤ v.s1Coords.length
  length_s2Coords : n ≤ v.s2Coords.length
  s1_eq : p.s1 = (tensorBasis (v.s1Coords.take n)).map (v.s1Acc * ·)
  s2_eq : p.s2 = (tensorBasis (v.s2Coords.take n)).map (v.s2Acc * ·)

namespace Linked

variable {mode : Mode} {random : RoundRandomness F} {pair : G1 →ₗ[F] G2 →ₗ[F] GT} {setup : ProverSetup G1 G2 GT}
  {p : DoryProverState F G1 G2} {v : DoryVerifierState F G1 G2 GT} {m n : Nat} {g1First : G1} {g2First : G2}

omit [DecidableEq F] in
theorem take_succ_of {α : Type} {xs : List α} {x : α} (h : xs[n]? = .some x) : xs.take (n + 1) = xs.take n ++ [x] := by
  rw [List.take_add_one, h]
  rfl

omit [DecidableEq F] in
theorem length_fold {G : Type} [AddCommGroup G] [Module F G] {k : F} {xs : List G} (h : xs.length = 2 ^ (n + 1)) :
    (axpy k (xs.take (2 ^ n)) (xs.drop (2 ^ n))).length = 2 ^ n := by
  obtain ⟨hl, hr⟩ := DoryProverState.length_halves h
  rw [length_axpy, hl, hr, Nat.min_self]

/-- The state of the verifier after a round. -/
theorem processRound_eq (hl : Linked pair setup p v (n + 1)) (hn : n < m)
    {alpha beta y x : F} (halpha : alpha ≠ 0) (hbeta : beta ≠ 0) (hy : v.s1Coords[n]? = .some y)
    (hx : v.s2Coords[n]? = .some x) (first : FirstReduceMessage G1 G2 GT) (second : SecondReduceMessage G1 G2 GT) :
    v.processRound (setup.derived pair m g1First g2First) first second alpha beta = .ok { v with
      c := v.c + setup.product pair (n + 1) + beta • v.d2 + beta⁻¹ • v.d1 + alpha • second.cPlus +
        alpha⁻¹ • second.cMinus
      d1 := alpha • first.d1Left + first.d1Right + (alpha * beta) • setup.product pair n +
        beta • dot pair (ProverSetup.upper setup.g1Vec n) (setup.g2Vec.take (2 ^ n))
      d2 := alpha⁻¹ • first.d2Left + first.d2Right + (alpha⁻¹ * beta⁻¹) • setup.product pair n +
        beta⁻¹ • dot pair (setup.g1Vec.take (2 ^ n)) (ProverSetup.upper setup.g2Vec n)
      e1 := v.e1 + beta • first.e1Beta + alpha • second.e1Plus + alpha⁻¹ • second.e1Minus
      e2 := v.e2 + beta⁻¹ • first.e2Beta + alpha • second.e2Plus + alpha⁻¹ • second.e2Minus
      s1Acc := v.s1Acc * (alpha * (1 - y) + y)
      s2Acc := v.s2Acc * (alpha⁻¹ * (1 - x) + x)
      numRounds := n } := by
  rw [DoryVerifierState.processRound]
  simp only [hl.numRounds_eq, Outcome.check_true (Nat.succ_ne_zero n), inv_of_ne halpha, inv_of_ne hbeta,
    Outcome.okOr_some, Outcome.ofOption_some, Outcome.ok_bind, Nat.add_sub_cancel, hy, hx, ProverSetup.derived,
    List.getElem?_cons_succ, List.getElem?_map, List.getElem?_range hn,
    List.getElem?_range (Nat.succ_lt_succ hn), Option.map_some, Outcome.pure_eq]

variable (g1First g2First) in
/-- **A round** keeps the prover's vectors opening the verifier's values: the prover stops only at a
zero challenge, and the verifier accepts the two messages. -/
theorem round (hv : setup.Valid pair m) (hl : Linked pair setup p v (n + 1)) (hn : n < m) (mode : Mode)
    (random : RoundRandomness F) :
    ∃ first p1, p.computeFirstMessage mode random pair setup = .ok (first, p1) ∧
      ∀ beta, beta ≠ 0 → ∃ p2, p1.applyFirstChallenge setup beta = .ok p2 ∧
        ∃ second p3, p2.computeSecondMessage mode random pair setup = .ok (second, p3) ∧
          ∀ alpha, alpha ≠ 0 → ∃ p4 v', p3.applySecondChallenge alpha = .ok p4 ∧
            v.processRound (setup.derived pair m g1First g2First) first second alpha beta = .ok v' ∧
            Linked pair setup p4 v' n ∧ v'.e1Init = v.e1Init ∧ v'.d2Init = v.d2Init ∧
              (mode = .transparent → p.Unblinded → p4.Unblinded) := by
  obtain ⟨hg1, hg2⟩ := hv.pow_le (k := n + 1) (by omega)
  obtain ⟨hg1', hg2'⟩ := hv.pow_le (k := n) (by omega)
  have hdouble : 2 ^ (n + 1) = 2 ^ n + 2 ^ n := by rw [pow_succ]; omega
  obtain ⟨y, hy⟩ : ∃ y, v.s1Coords[n]? = .some y := ⟨_, List.getElem?_eq_getElem hl.length_s1Coords⟩
  obtain ⟨x, hx⟩ : ∃ x, v.s2Coords[n]? = .some x := ⟨_, List.getElem?_eq_getElem hl.length_s2Coords⟩
  have hs := hl.shaped
  have hlen1 : (setup.g1Vec.take (2 ^ (n + 1))).length = 2 ^ (n + 1) := by simp [hg1]
  have hlen2 : (setup.g2Vec.take (2 ^ (n + 1))).length = 2 ^ (n + 1) := by simp [hg2]
  refine ⟨_, _, hs.computeFirstMessage_eq hv hn, fun beta hbeta => ?_⟩
  have hw1 : (axpy beta (setup.g1Vec.take (2 ^ (n + 1))) p.v1).length = 2 ^ (n + 1) := by
    rw [length_axpy, hlen1, hs.length_v1, Nat.min_self]
  have hw2 : (axpy beta⁻¹ (setup.g2Vec.take (2 ^ (n + 1))) p.v2).length = 2 ^ (n + 1) := by
    rw [length_axpy, hlen2, hs.length_v2, Nat.min_self]
  refine ⟨_, DoryProverState.Shaped.applyFirstChallenge_eq hv
    (by exact ⟨hs.numRounds_eq, hs.length_v1, hs.length_v2, hs.length_s1, hs.length_s2, hs.scalars⟩) hn hbeta, ?_⟩
  refine ⟨_, _, DoryProverState.Shaped.computeSecondMessage_eq
    (by exact ⟨hs.numRounds_eq, hw1, hw2, hs.length_s1, hs.length_s2, by simp⟩ : DoryProverState.Shaped setup _ _), fun alpha halpha => ?_⟩
  refine ⟨_, _, DoryProverState.Shaped.applySecondChallenge_eq
    (by exact ⟨hs.numRounds_eq, hw1, hw2, hs.length_s1, hs.length_s2, by simp⟩ : DoryProverState.Shaped setup _ _) halpha,
    hl.processRound_eq hn halpha hbeta hy hx _ _, ?_, rfl, rfl, ?_⟩
  case refine_2 =>
    rintro rfl ⟨hc, hd1, hd2, he1, he2⟩
    constructor <;> simp [Mode.samples, Mode.sample, hc, hd1, hd2, he1, he2]
  have halpha' : alpha * alpha⁻¹ = 1 := mul_inv_cancel₀ halpha
  have halpha'' : alpha⁻¹ * alpha = 1 := inv_mul_cancel₀ halpha
  have hbeta' : beta * beta⁻¹ = 1 := mul_inv_cancel₀ hbeta
  obtain ⟨hv1l, hv1r⟩ := DoryProverState.length_halves hs.length_v1
  obtain ⟨hv2l, hv2r⟩ := DoryProverState.length_halves hs.length_v2
  obtain ⟨hw1l, hw1r⟩ := DoryProverState.length_halves hw1
  obtain ⟨hw2l, hw2r⟩ := DoryProverState.length_halves hw2
  obtain ⟨hgens1, hgens1r⟩ := DoryProverState.length_halves hlen1
  obtain ⟨hgens2, hgens2r⟩ := DoryProverState.length_halves hlen2
  have htake1 : (setup.g1Vec.take (2 ^ (n + 1))).take (2 ^ n) = setup.g1Vec.take (2 ^ n) := by
    rw [List.take_take, Nat.min_eq_left (DoryProverState.two_pow_le_succ n)]
  have htake2 : (setup.g2Vec.take (2 ^ (n + 1))).take (2 ^ n) = setup.g2Vec.take (2 ^ n) := by
    rw [List.take_take, Nat.min_eq_left (DoryProverState.two_pow_le_succ n)]
  rw [htake1] at hgens1
  rw [htake2] at hgens2
  constructor
  case shaped =>
    exact ⟨rfl, length_fold hw1, length_fold hw2, length_fold hs.length_s1, length_fold hs.length_s2, by simp⟩
  case numRounds_eq => rfl
  case c_eq =>
    dsimp only
    rw [dot_fold_halves pair halpha' (hw1.trans hdouble) (hw2.trans hdouble),
      dot_axpy_axpy pair hbeta' (hlen1.trans hlen2.symm) (hs.length_v1.trans hlen2.symm)
        (hs.length_v2.trans hlen2.symm), hl.c_eq, hl.d1_eq, hl.d2_eq, ProverSetup.product]
    module
  case d1_eq =>
    dsimp only
    rw [dot_axpy_left pair alpha (hw1l.trans hgens2.symm) (hw1r.trans hgens2.symm), take_axpy, drop_axpy, htake1,
      dot_axpy_left pair beta (hgens1.trans hgens2.symm) (hv1l.trans hgens2.symm),
      dot_axpy_left pair beta (hgens1r.trans hgens2.symm) (hv1r.trans hgens2.symm), ProverSetup.product,
      ProverSetup.upper]
    module
  case d2_eq =>
    dsimp only
    rw [dot_axpy_right pair alpha⁻¹ (hw2l.trans hgens1.symm) (hw2r.trans hgens1.symm), take_axpy, drop_axpy, htake2,
      dot_axpy_right pair beta⁻¹ (hgens2.trans hgens1.symm) (hv2l.trans hgens1.symm),
      dot_axpy_right pair beta⁻¹ (hgens2r.trans hgens1.symm) (hv2r.trans hgens1.symm), ProverSetup.product,
      ProverSetup.upper]
    module
  case e1_eq =>
    dsimp only
    rw [hl.e1_eq]
    simp only [msm]
    rw [dot_fold_halves _ halpha' (hw1.trans hdouble) (hs.length_s2.trans hdouble),
      dot_axpy_left _ beta (hlen1.trans hs.length_s2.symm) (hs.length_v1.trans hs.length_s2.symm)]
    module
  case e2_eq =>
    dsimp only
    rw [hl.e2_eq]
    simp only [msm]
    rw [dot_fold_halves _ halpha'' (hw2.trans hdouble) (hs.length_s1.trans hdouble),
      dot_axpy_left _ beta⁻¹ (hlen2.trans hs.length_s1.symm) (hs.length_v2.trans hs.length_s1.symm)]
    module
  case length_s1Coords => exact Nat.le_of_lt hl.length_s1Coords
  case length_s2Coords => exact Nat.le_of_lt hl.length_s2Coords
  case s1_eq =>
    dsimp only
    have hfold := fold_tensorBasis alpha v.s1Acc y (v.s1Coords.take n)
    rwa [← take_succ_of hy, ← hl.s1_eq, List.length_take, Nat.min_eq_left (Nat.le_of_lt hl.length_s1Coords)] at hfold
  case s2_eq =>
    dsimp only
    have hfold := fold_tensorBasis alpha⁻¹ v.s2Acc x (v.s2Coords.take n)
    rwa [← take_succ_of hx, ← hl.s2_eq, List.length_take, Nat.min_eq_left (Nat.le_of_lt hl.length_s2Coords)] at hfold

end Linked

end LightningJolt.Dory
