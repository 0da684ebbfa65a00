/-
The Dory evaluation proof: how a prover makes it and a verifier checks it over one Fiat-Shamir
transcript, in the transparent and in the zero-knowledge mode.
-/
import LightningJolt.DoryReduce
import LightningJolt.UniPoly

namespace LightningJolt.Dory

variable {S F G1 G2 GT : Type} [Field F] [DecidableEq F] [AddCommGroup G1] [Module F G1] [AddCommGroup G2]
  [Module F G2] [AddCommGroup GT] [Module F GT]

/-! ## Transcripts and proofs -/

/-- What `append_serde` absorbs. -/
inductive Absorbed (G1 G2 GT : Type)
  | g1 (g : G1)
  | g2 (g : G2)
  | gt (g : GT)

/-- `Transcript`: what absorbing a value and drawing a challenge do to its state. -/
structure Transcript (S F G1 G2 GT : Type) where
  appendSerde : S → String → Absorbed G1 G2 GT → S
  challengeScalar : S → String → F × S

/-- `VMVMessage`. -/
structure VMVMessage (G1 GT : Type) where
  c : GT
  d2 : GT
  e1 : G1
deriving DecidableEq

/-- `Sigma1Proof`. -/
structure Sigma1Proof (F G1 G2 : Type) where
  a1 : G2
  a2 : G1
  z1 : F
  z2 : F
  z3 : F
deriving DecidableEq

/-- `Sigma2Proof`. -/
structure Sigma2Proof (F GT : Type) where
  a : GT
  z1 : F
  z2 : F
deriving DecidableEq

/-- `DoryProof`. -/
structure DoryProof (F G1 G2 GT : Type) where
  vmvMessage : VMVMessage G1 GT
  firstMessages : List (FirstReduceMessage G1 G2 GT)
  secondMessages : List (SecondReduceMessage G1 G2 GT)
  finalMessage : ScalarProductMessage G1 G2
  nu : Nat
  sigma : Nat
  e2 : Option G2
  yCom : Option G1
  sigma1Proof : Option (Sigma1Proof F G1 G2)
  sigma2Proof : Option (Sigma2Proof F GT)
  scalarProductProof : Option (ScalarProductProof F G1 G2 GT)
deriving DecidableEq

/-- The scalars that the calls to `sample` and `random` of one proof draw. -/
structure ProverRandomness (F : Type) where
  commit : F
  rC : F
  rD2 : F
  rE1 : F
  rE2 : F
  rY : F
  sigma1 : F × F × F
  sigma2 : F × F
  rounds : Nat → RoundRandomness F
  productD : F × F
  productP : F × F
  productQ : F
  productR : F
  final : F × F

variable (tr : Transcript S F G1 G2 GT)

namespace Transcript

/-- A challenge. -/
def challenge (t : S) (label : String) : F := (tr.challengeScalar t label).1

/-- The state after a challenge. -/
def drawn (t : S) (label : String) : S := (tr.challengeScalar t label).2

/-- The absorption of a first message. -/
def absorbFirst (t : S) (msg : FirstReduceMessage G1 G2 GT) : S :=
  let t := tr.appendSerde t "d1_left" (.gt msg.d1Left)
  let t := tr.appendSerde t "d1_right" (.gt msg.d1Right)
  let t := tr.appendSerde t "d2_left" (.gt msg.d2Left)
  let t := tr.appendSerde t "d2_right" (.gt msg.d2Right)
  let t := tr.appendSerde t "e1_beta" (.g1 msg.e1Beta)
  tr.appendSerde t "e2_beta" (.g2 msg.e2Beta)

/-- The absorption of a second message. -/
def absorbSecond (t : S) (msg : SecondReduceMessage G1 G2 GT) : S :=
  let t := tr.appendSerde t "c_plus" (.gt msg.cPlus)
  let t := tr.appendSerde t "c_minus" (.gt msg.cMinus)
  let t := tr.appendSerde t "e1_plus" (.g1 msg.e1Plus)
  let t := tr.appendSerde t "e1_minus" (.g1 msg.e1Minus)
  let t := tr.appendSerde t "e2_plus" (.g2 msg.e2Plus)
  tr.appendSerde t "e2_minus" (.g2 msg.e2Minus)

/-- The absorption of the first message of all. -/
def absorbVmv (t : S) (msg : VMVMessage G1 GT) : S :=
  let t := tr.appendSerde t "vmv_c" (.gt msg.c)
  let t := tr.appendSerde t "vmv_d2" (.gt msg.d2)
  tr.appendSerde t "vmv_e1" (.g1 msg.e1)

/-- The absorption of the last message. -/
def absorbFinal (t : S) (msg : ScalarProductMessage G1 G2) : S :=
  let t := tr.appendSerde t "final_e1" (.g1 msg.e1)
  tr.appendSerde t "final_e2" (.g2 msg.e2)

/-- The absorption of the first part of a scalar product proof. -/
def absorbProduct (t : S) (p1 p2 q r : GT) : S :=
  let t := tr.appendSerde t "sigma_p1" (.gt p1)
  let t := tr.appendSerde t "sigma_p2" (.gt p2)
  let t := tr.appendSerde t "sigma_q" (.gt q)
  tr.appendSerde t "sigma_r" (.gt r)

end Transcript

/-! ## The prover -/

/-- `generate_sigma1_proof`, with the scalars it draws. -/
def generateSigma1Proof (random : F × F × F) (y rE2 rY : F) (setup : ProverSetup G1 G2 GT) (t : S) :
    Outcome (Sigma1Proof F G1 G2 × S) := do
  let g2Fin ← .ofOption setup.g2Vec[0]?
  let g1Fin ← .ofOption setup.g1Vec[0]?
  let (k1, k2, k3) := random
  let a1 := k1 • g2Fin + k2 • setup.h2
  let a2 := k1 • g1Fin + k3 • setup.h1
  let t := tr.appendSerde t "sigma1_a1" (.g2 a1)
  let t := tr.appendSerde t "sigma1_a2" (.g1 a2)
  let c := tr.challenge t "sigma1_c"
  let t := tr.drawn t "sigma1_c"
  return ({ a1, a2, z1 := k1 + c * y, z2 := k2 + c * rE2, z3 := k3 + c * rY }, t)

/-- `generate_sigma2_proof`, with the scalars it draws. -/
def generateSigma2Proof (random : F × F) (pair : G1 →ₗ[F] G2 →ₗ[F] GT) (t1 t2 : F) (setup : ProverSetup G1 G2 GT)
    (t : S) : Outcome (Sigma2Proof F GT × S) := do
  let (k1, k2) := random
  let a := pair setup.h1 (k1 • (← .ofOption setup.g2Vec[0]?) + k2 • setup.h2)
  let t := tr.appendSerde t "sigma2_a" (.gt a)
  let c := tr.challenge t "sigma2_c"
  let t := tr.drawn t "sigma2_c"
  return ({ a, z1 := k1 + c * t1, z2 := k2 + c * t2 }, t)

/-- `scalar_product_proof`, with the scalars it draws. -/
def DoryProverState.scalarProductProof (random : ProverRandomness F) (pair : G1 →ₗ[F] G2 →ₗ[F] GT)
    (setup : ProverSetup G1 G2 GT) (st : DoryProverState F G1 G2) (t : S) :
    Outcome (ScalarProductProof F G1 G2 GT × S) := do
  let v1 ← .ofOption st.v1[0]?
  let v2 ← .ofOption st.v2[0]?
  let g1 ← .ofOption setup.g1Vec[0]?
  let g2 ← .ofOption setup.g2Vec[0]?
  let (sd1, sd2) := random.productD
  let d1 := sd1 • g1
  let d2 := sd2 • g2
  let (rp1, rp2) := random.productP
  let rq := random.productQ
  let rr := random.productR
  let p1 := pair d1 g2 + rp1 • setup.ht
  let p2 := pair g1 d2 + rp2 • setup.ht
  let q := pair d1 v2 + pair v1 d2 + rq • setup.ht
  let r := pair d1 d2 + rr • setup.ht
  let t := tr.absorbProduct t p1 p2 q r
  let c := tr.challenge t "sigma_c"
  let t := tr.drawn t "sigma_c"
  return ({
    p1, p2, q, r
    e1 := d1 + c • v1
    e2 := d2 + c • v2
    r1 := rp1 + c * st.rD1
    r2 := rp2 + c * st.rD2
    r3 := rr + c * rq + c * c * st.rC }, t)

/-- The rounds of the prover. -/
def proveRounds (mode : Mode) (random : Nat → RoundRandomness F) (pair : G1 →ₗ[F] G2 →ₗ[F] GT)
    (setup : ProverSetup G1 G2 GT) : Nat → Nat → DoryProverState F G1 G2 → S →
    Outcome (List (FirstReduceMessage G1 G2 GT) × List (SecondReduceMessage G1 G2 GT) × DoryProverState F G1 G2 × S)
  | 0, _, st, t => return ([], [], st, t)
  | left + 1, round, st, t => do
    let (first, st) ← st.computeFirstMessage mode (random round) pair setup
    let t := tr.absorbFirst t first
    let beta := tr.challenge t "beta"
    let t := tr.drawn t "beta"
    let st ← st.applyFirstChallenge setup beta
    let (second, st) ← st.computeSecondMessage mode (random round) pair setup
    let t := tr.absorbSecond t second
    let alpha := tr.challenge t "alpha"
    let t := tr.drawn t "alpha"
    let st ← st.applySecondChallenge alpha
    let (firsts, seconds, st, t) ← proveRounds mode random pair setup left (round + 1) st t
    return (first :: firsts, second :: seconds, st, t)

/-- The parts of a proof that only the zero-knowledge mode makes before the rounds. -/
structure ZkParts (F G1 G2 GT : Type) where
  e2 : Option G2
  yCom : Option G1
  sigma1 : Option (Sigma1Proof F G1 G2)
  sigma2 : Option (Sigma2Proof F GT)
  rY : Option F

/-- Those parts, with the transcript after them. -/
def zkParts (mode : Mode) (random : ProverRandomness F) (pair : G1 →ₗ[F] G2 →ₗ[F] GT) (poly : ArkworksPolynomial F)
    (point : List F) (rD2 rE1 rE2 : F) (g2Fin : G2) (setup : ProverSetup G1 G2 GT) (t : S) :
    Outcome (ZkParts F G1 G2 GT × S) :=
  if mode.blinding then do
    let y ← poly.evaluate point
    let rY := mode.sample random.rY
    let e2 := mode.mask (y • g2Fin) setup.h2 rE2
    let yCom := y • (← .ofOption setup.g1Vec[0]?) + rY • setup.h1
    let t := tr.appendSerde t "vmv_e2" (.g2 e2)
    let t := tr.appendSerde t "vmv_y_com" (.g1 yCom)
    let (s1, t) ← generateSigma1Proof tr random.sigma1 y rE2 rY setup t
    let (s2, t) ← generateSigma2Proof tr random.sigma2 pair rE1 (-rD2) setup t
    return ({ e2 := .some e2, yCom := .some yCom, sigma1 := .some s1, sigma2 := .some s2, rY := .some rY }, t)
  else return ({ e2 := .none, yCom := .none, sigma1 := .none, sigma2 := .none, rY := .none }, t)

/-- The scalar product proof, which only the zero-knowledge mode makes. -/
def productPart (mode : Mode) (random : ProverRandomness F) (pair : G1 →ₗ[F] G2 →ₗ[F] GT)
    (setup : ProverSetup G1 G2 GT) (st : DoryProverState F G1 G2) (t : S) :
    Outcome (Option (ScalarProductProof F G1 G2 GT) × S) :=
  if mode.blinding then do
    let (sp, t) ← st.scalarProductProof tr random pair setup t
    return (.some sp, t)
  else return (.none, t)

/-- The row commitments that the caller gives with their blind, or those of a commitment made here. -/
def rowsAndBlind (mode : Mode) (random : F) (pair : G1 →ₗ[F] G2 →ₗ[F] GT) (poly : ArkworksPolynomial F)
    (rowCommitments : Option (List G1)) (commitBlind : F) (nu sigma : Nat) (setup : ProverSetup G1 G2 GT) :
    Outcome (List G1 × F) :=
  match rowCommitments with
  | .some rows => return (rows, commitBlind)
  | .none => do
    let (_, rows, blind) ← poly.commit mode random pair nu sigma setup
    return (rows, blind)

/-- `resize`. -/
def resize {α : Type} (xs : List α) (n : Nat) (a : α) : List α := xs.take n ++ List.replicate (n - xs.length) a

/-- `create_evaluation_proof` up to its last challenge: the proof, the blind of the value and the transcript. -/
def evaluationProof (π : BuildProfile) (mode : Mode) (random : ProverRandomness F) (pair : G1 →ₗ[F] G2 →ₗ[F] GT)
    (poly : ArkworksPolynomial F) (point : List F) (rowCommitments : Option (List G1)) (commitBlind : F)
    (nu sigma : Nat) (setup : ProverSetup G1 G2 GT) (t : S) : Outcome ((DoryProof F G1 G2 GT × Option F) × S) := do
  let numVars ← .ofOption (π.addUsize nu sigma)
  .check (point.length = numVars) (.invalidPointDimension numVars point.length)
  .check (nu ≤ sigma) (.invalidSize sigma nu)
  let (rowCommitments, commitBlind) ← rowsAndBlind mode random.commit pair poly rowCommitments commitBlind nu sigma setup
  let (leftVec, rightVec) ← computeLeftRightVectors point nu sigma
  let vVec := poly.vectorMatrixProduct leftVec nu sigma
  let paddedRowCommitments := if nu < sigma then resize rowCommitments (1 <<< sigma) 0 else rowCommitments
  let rC := mode.sample random.rC
  let rD2 := mode.sample random.rD2
  let rE1 := mode.sample random.rE1
  let rE2 := mode.sample random.rE2
  let g2Fin ← .ofOption setup.g2Vec[0]?
  let tVecV ← DoryRoutines.msm paddedRowCommitments vVec
  let c := mode.mask (pair tVecV g2Fin) setup.ht rC
  let gensV ← DoryRoutines.msm (← sliceTo setup.g1Vec (1 <<< sigma)) vVec
  let d2 := mode.mask (pair gensV g2Fin) setup.ht rD2
  let e1 := mode.mask (← DoryRoutines.msm rowCommitments leftVec) setup.h1 rE1
  let vmvMessage : VMVMessage G1 GT := { c, d2, e1 }
  let t := tr.absorbVmv t vmvMessage
  let (zk, t) ← zkParts tr mode random pair poly point rD2 rE1 rE2 g2Fin setup t
  let v2 := DoryRoutines.fixedBaseVectorScalarMul g2Fin vVec
  let paddedRightVec := if nu < sigma then resize rightVec (1 <<< sigma) 0 else rightVec
  let paddedLeftVec := if nu < sigma then resize leftVec (1 <<< sigma) 0 else leftVec
  let st := DoryProverState.new paddedRowCommitments v2 (.some vVec) paddedRightVec paddedLeftVec
  let st := st.setInitialBlinds commitBlind rC rD2 rE1 rE2
  let numRounds := max nu sigma
  let (firstMessages, secondMessages, st, t) ← proveRounds tr mode random.rounds pair setup numRounds 0 st t
  let gamma := tr.challenge t "gamma"
  let t := tr.drawn t "gamma"
  let (scalarProductProof, t) ← productPart tr mode random pair setup st t
  let (finalMessage, _) ← st.computeFinalMessage mode setup random.final gamma
  let t := tr.absorbFinal t finalMessage
  return (({
    vmvMessage, firstMessages, secondMessages, finalMessage, nu, sigma
    e2 := zk.e2
    yCom := zk.yCom
    sigma1Proof := zk.sigma1
    sigma2Proof := zk.sigma2
    scalarProductProof }, zk.rY), t)

/-- `create_evaluation_proof`. -/
def createEvaluationProof (π : BuildProfile) (mode : Mode) (random : ProverRandomness F) (pair : G1 →ₗ[F] G2 →ₗ[F] GT)
    (poly : ArkworksPolynomial F) (point : List F) (rowCommitments : Option (List G1)) (commitBlind : F)
    (nu sigma : Nat) (setup : ProverSetup G1 G2 GT) (t : S) : Outcome ((DoryProof F G1 G2 GT × Option F) × S) := do
  let (proof, t) ← evaluationProof tr π mode random pair poly point rowCommitments commitBlind nu sigma setup t
  let t := tr.drawn t "d"
  return (proof, t)

/-! ## The verifier -/

/-- `verify_sigma1_proof`. -/
def verifySigma1Proof [DecidableEq G1] [DecidableEq G2] (e2 : G2) (yCommit : G1) (proof : Sigma1Proof F G1 G2)
    (setup : VerifierSetup G1 G2 GT) (t : S) : Outcome S := do
  let t := tr.appendSerde t "sigma1_a1" (.g2 proof.a1)
  let t := tr.appendSerde t "sigma1_a2" (.g1 proof.a2)
  let c := tr.challenge t "sigma1_c"
  let t := tr.drawn t "sigma1_c"
  .check (proof.z1 • setup.g2First + proof.z2 • setup.h2 = proof.a1 + c • e2) .invalidProof
  .check (proof.z1 • setup.g1First + proof.z3 • setup.h1 = proof.a2 + c • yCommit) .invalidProof
  return t

/-- `verify_sigma2_proof`. -/
def verifySigma2Proof [DecidableEq GT] (pair : G1 →ₗ[F] G2 →ₗ[F] GT) (e1 : G1) (d2 : GT) (proof : Sigma2Proof F GT)
    (setup : VerifierSetup G1 G2 GT) (t : S) : Outcome S := do
  let t := tr.appendSerde t "sigma2_a" (.gt proof.a)
  let c := tr.challenge t "sigma2_c"
  let t := tr.drawn t "sigma2_c"
  let expected := pair e1 setup.g2First - d2
  let lhs := pair setup.h1 (proof.z1 • setup.g2First + proof.z2 • setup.h2)
  .check (lhs = proof.a + c • expected) .invalidProof
  return t

/-- The rounds of the verifier. -/
def verifyRounds (setup : VerifierSetup G1 G2 GT) :
    List (FirstReduceMessage G1 G2 GT) → List (SecondReduceMessage G1 G2 GT) → DoryVerifierState F G1 G2 GT → S →
    Outcome (DoryVerifierState F G1 G2 GT × S)
  | first :: firsts, second :: seconds, st, t => do
    let t := tr.absorbFirst t first
    let beta := tr.challenge t "beta"
    let t := tr.drawn t "beta"
    let t := tr.absorbSecond t second
    let alpha := tr.challenge t "alpha"
    let t := tr.drawn t "alpha"
    let st ← st.processRound setup first second alpha beta
    verifyRounds setup firsts seconds st t
  | _, _, st, t => return (st, t)

/-- `E₂` with whether the proof is one of the zero-knowledge mode, whose first two proofs are checked. -/
def verifyZkParts [DecidableEq G1] [DecidableEq G2] [DecidableEq GT] (pair : G1 →ₗ[F] G2 →ₗ[F] GT) (evaluation : F)
    (proof : DoryProof F G1 G2 GT) (setup : VerifierSetup G1 G2 GT) (t : S) : Outcome (G2 × Bool × S) :=
  match proof.e2, proof.yCom with
  | .some pe2, .some yc =>
    let t := tr.appendSerde t "vmv_e2" (.g2 pe2)
    let t := tr.appendSerde t "vmv_y_com" (.g1 yc)
    match proof.sigma1Proof, proof.sigma2Proof with
    | .some s1, .some s2 => do
      let t ← verifySigma1Proof tr pe2 yc s1 setup t
      let t ← verifySigma2Proof tr pair proof.vmvMessage.e1 proof.vmvMessage.d2 s2 setup t
      return (pe2, true, t)
    | _, _ => .error .invalidProof
  | .none, .none => return (evaluation • setup.g2First, false, t)
  | _, _ => .error .invalidProof

/-- The scalar product proof of a proof of the zero-knowledge mode, with its challenge. -/
def zkData (isZk : Bool) (proof : DoryProof F G1 G2 GT) (t : S) :
    Outcome (Option (ScalarProductProof F G1 G2 GT × F) × S) :=
  if isZk then
    match proof.scalarProductProof with
    | .some sp =>
      let t := tr.absorbProduct t sp.p1 sp.p2 sp.q sp.r
      let c := tr.challenge t "sigma_c"
      let t := tr.drawn t "sigma_c"
      return (.some (sp, c), t)
    | .none => .error .invalidProof
  else return (.none, t)

/-- `verify_evaluation_proof`, with the transcript it ends in. -/
def verifyEvaluationProof [DecidableEq G1] [DecidableEq G2] [DecidableEq GT] (π : BuildProfile)
    (pair : G1 →ₗ[F] G2 →ₗ[F] GT) (commitment : GT) (evaluation : F) (point : List F) (proof : DoryProof F G1 G2 GT)
    (setup : VerifierSetup G1 G2 GT) (t : S) : Outcome S := do
  let nu := proof.nu
  let sigma := proof.sigma
  let numVars ← .ofOption (π.addUsize nu sigma)
  .check (point.length = numVars) (.invalidPointDimension numVars point.length)
  let t := tr.absorbVmv t proof.vmvMessage
  let (e2, isZk, t) ← verifyZkParts tr pair evaluation proof setup t
  let numRounds := sigma
  let maxRounds := setup.maxLogN / 2
  .check (¬ (numRounds > maxRounds ∨ proof.firstMessages.length ≠ numRounds ∨
    proof.secondMessages.length ≠ numRounds)) .invalidProof
  let s1Coords ← sliceTo point sigma
  let rowCoords ← slice point sigma (← .ofOption (π.addUsize sigma nu))
  -- `copy_from_slice` into the first `nu` of `sigma` zeros
  .assert (nu ≤ sigma)
  let s2Coords := rowCoords ++ List.replicate (sigma - nu) 0
  let st := DoryVerifierState.new proof.vmvMessage.c commitment proof.vmvMessage.d2 proof.vmvMessage.e1 e2 s1Coords
    s2Coords numRounds
  let (st, t) ← verifyRounds tr setup proof.firstMessages proof.secondMessages st t
  let gamma := tr.challenge t "gamma"
  let t := tr.drawn t "gamma"
  let (zkData, t) ← zkData tr isZk proof t
  let t := tr.absorbFinal t proof.finalMessage
  let d := tr.challenge t "d"
  let t := tr.drawn t "d"
  st.verifyFinal pair setup proof.finalMessage gamma d zkData
  return t

end LightningJolt.Dory
