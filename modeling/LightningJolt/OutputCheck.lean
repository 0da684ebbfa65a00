/-
The output check of RAM (`jolt-core/src/zkvm/ram/output_check.rs`) in its batch: the address point it
shares with the read-write checking and the RAF evaluation, the prover with its rounds for cycle
variables, and when its rounds are those of the direct sumcheck.
-/
import LightningJolt.GruenRounds
import LightningJolt.BatchedSumcheck
import LightningJolt.IncReduction
import LightningJolt.IoMle
import LightningJolt.LtPolynomial
import LightningJolt.Preamble
import LightningJolt.ProductSum
import LightningJolt.ScalarField

namespace LightningJolt

open Finset hiding slice
open BatchedSumcheck (slice)

variable {F C : Type} [JoltField F] [Challenge C F]

/-! ## The address point -/

/-- The challenges of the address variables, without those of the cycle variables in between. -/
def addressPoint (phase2NumRounds gap : Nat) (challenges : List C) : List C :=
  (challenges.take phase2NumRounds ++ challenges.drop (phase2NumRounds + gap)).reverse

/-- `RamReadWriteCheckingParams`. -/
structure RamReadWriteCheckingParams where
  logK : Nat
  logT : Nat
  phase1NumRounds : Nat
  phase2NumRounds : Nat

namespace RamReadWriteCheckingParams

variable (rp : RamReadWriteCheckingParams)

def new (logK logT : Nat) (config : ReadWriteConfig) : RamReadWriteCheckingParams where
  logK := logK
  logT := logT
  phase1NumRounds := config.ramRwPhase1NumRounds.toNat
  phase2NumRounds := config.ramRwPhase2NumRounds.toNat

def numRounds : Nat := rp.logK + rp.logT

def roundOffset (maxNumRounds : Nat) : Nat := maxNumRounds - rp.numRounds

/-- `normalize_opening_point`, the address first. -/
def normalizeOpeningPoint (sumcheckChallenges : List C) : List C :=
  let phase1Challenges := sumcheckChallenges.take rp.phase1NumRounds
  let sumcheckChallenges := sumcheckChallenges.drop rp.phase1NumRounds
  let phase2Challenges := sumcheckChallenges.take rp.phase2NumRounds
  let sumcheckChallenges := sumcheckChallenges.drop rp.phase2NumRounds
  let phase3CycleChallenges := sumcheckChallenges.take (rp.logT - rp.phase1NumRounds)
  let phase3AddressChallenges := sumcheckChallenges.drop (rp.logT - rp.phase1NumRounds)
  let rCycle := phase3CycleChallenges.reverse ++ phase1Challenges.reverse
  let rAddress := phase3AddressChallenges.reverse ++ phase2Challenges.reverse
  rAddress ++ rCycle

end RamReadWriteCheckingParams

/-- `RafEvaluationSumcheckParams`. -/
structure RafEvaluationSumcheckParams where
  logK : Nat
  logT : Nat
  phase1NumRounds : Nat
  phase2NumRounds : Nat

namespace RafEvaluationSumcheckParams

variable (rp : RafEvaluationSumcheckParams)

def new (logK logT : Nat) (config : ReadWriteConfig) : RafEvaluationSumcheckParams where
  logK := logK
  logT := logT
  phase1NumRounds := config.ramRwPhase1NumRounds.toNat
  phase2NumRounds := config.ramRwPhase2NumRounds.toNat

def phase3CycleRounds : Nat := rp.logT - rp.phase1NumRounds

def numRounds : Nat := rp.logT + rp.logK - rp.phase1NumRounds

def roundOffset (maxNumRounds : Nat) : Nat := maxNumRounds - (rp.logT + rp.logK) + rp.phase1NumRounds

def normalizeOpeningPoint (challenges : List C) : List C :=
  addressPoint rp.phase2NumRounds rp.phase3CycleRounds challenges

end RafEvaluationSumcheckParams

/-- `OutputSumcheckParams`. -/
structure OutputSumcheckParams (C : Type) where
  logK : Nat
  logT : Nat
  phase1NumRounds : Nat
  phase2NumRounds : Nat
  rAddress : List C
  programIo : JoltDevice

namespace OutputSumcheckParams

variable (op : OutputSumcheckParams C)

/-- `new`, from the challenges drawn for the address. -/
def new (logK : Nat) (programIo : JoltDevice) (rAddress : List C) (logT : Nat) (config : ReadWriteConfig) :
    OutputSumcheckParams C where
  logK := logK
  logT := logT
  phase1NumRounds := config.ramRwPhase1NumRounds.toNat
  phase2NumRounds := config.ramRwPhase2NumRounds.toNat
  rAddress := rAddress
  programIo := programIo

def phase3CycleRounds : Nat := op.logT - op.phase1NumRounds

def IsInternalCycleGapRound (round : Nat) : Prop :=
  op.phase2NumRounds ≤ round ∧ round < op.phase2NumRounds + op.phase3CycleRounds

instance (round : Nat) : Decidable (op.IsInternalCycleGapRound round) := inferInstanceAs (Decidable (_ ∧ _))

def numRounds : Nat := op.logT + op.logK - op.phase1NumRounds

def roundOffset (maxNumRounds : Nat) : Nat := maxNumRounds - (op.logT + op.logK) + op.phase1NumRounds

def normalizeOpeningPoint (challenges : List C) : List C :=
  addressPoint op.phase2NumRounds op.phase3CycleRounds challenges

end OutputSumcheckParams

omit [JoltField F] [Challenge C F] in
/-- The slice of an instance that is active to the end is what is left behind its offset. -/
theorem slice_to_end {r : List C} {start len : Nat} (h : start + len = r.length) :
    slice r start len = .some (r.drop start) := by
  rw [slice, if_pos h.le, List.take_of_length_le (by rw [List.length_drop]; omega)]

/-- **The three instances share one address point**, whatever the phases. -/
theorem addressPoint_agrees {logK logT : Nat} {config : ReadWriteConfig} (hvalid : config.validate logT logK = true)
    (programIo : JoltDevice) (w : List C) {r : List C} (hr : logK + logT ≤ r.length) :
    let check := RamReadWriteCheckingParams.new logK logT config
    let raf := RafEvaluationSumcheckParams.new logK logT config
    let out := OutputSumcheckParams.new logK programIo w logT config
    ∃ checkSlice rafSlice outSlice, slice r (check.roundOffset r.length) check.numRounds = .some checkSlice ∧
      slice r (raf.roundOffset r.length) raf.numRounds = .some rafSlice ∧
      slice r (out.roundOffset r.length) out.numRounds = .some outSlice ∧
      out.normalizeOpeningPoint outSlice = (check.normalizeOpeningPoint checkSlice).take logK ∧
      raf.normalizeOpeningPoint rafSlice = (check.normalizeOpeningPoint checkSlice).take logK ∧
      (out.normalizeOpeningPoint outSlice).length = logK := by
  obtain ⟨hphase1, hphase2, -⟩ := of_decide_eq_true hvalid
  generalize hp1 : config.ramRwPhase1NumRounds.toNat = p1 at *
  generalize hp2 : config.ramRwPhase2NumRounds.toNat = p2 at *
  intro check raf out
  have hcheck : slice r (check.roundOffset r.length) check.numRounds = .some (r.drop (r.length - (logK + logT))) :=
    slice_to_end (by simp only [check, RamReadWriteCheckingParams.roundOffset, RamReadWriteCheckingParams.numRounds,
      RamReadWriteCheckingParams.new]; omega)
  have hraf : slice r (raf.roundOffset r.length) raf.numRounds = .some (r.drop (r.length - (logT + logK) + p1)) := by
    have hoffset : raf.roundOffset r.length = r.length - (logT + logK) + p1 := by rw [← hp1]; rfl
    have hrounds : raf.numRounds = logT + logK - p1 := by rw [← hp1]; rfl
    rw [hoffset, hrounds]
    exact slice_to_end (by omega)
  have hlength : (out.normalizeOpeningPoint (r.drop (r.length - (logT + logK) + p1))).length = logK := by
    have hpoint : out.normalizeOpeningPoint (r.drop (r.length - (logT + logK) + p1)) =
        addressPoint p2 (logT - p1) (r.drop (r.length - (logT + logK) + p1)) := by rw [← hp1, ← hp2]; rfl
    rw [hpoint, addressPoint]
    simp only [List.length_reverse, List.length_append, List.length_take, List.length_drop]
    omega
  have hpoint : out.normalizeOpeningPoint (r.drop (r.length - (logT + logK) + p1)) =
      (check.normalizeOpeningPoint (r.drop (r.length - (logK + logT)))).take logK := by
    have hout : out.normalizeOpeningPoint (r.drop (r.length - (logT + logK) + p1)) =
        addressPoint p2 (logT - p1) (r.drop (r.length - (logT + logK) + p1)) := by rw [← hp1, ← hp2]; rfl
    have haddress : check.normalizeOpeningPoint (r.drop (r.length - (logK + logT))) =
        out.normalizeOpeningPoint (r.drop (r.length - (logT + logK) + p1)) ++
          ((((r.drop (r.length - (logK + logT))).drop p1).drop p2).take (logT - p1)).reverse ++
            ((r.drop (r.length - (logK + logT))).take p1).reverse := by
      rw [hout]
      simp only [addressPoint, check, RamReadWriteCheckingParams.normalizeOpeningPoint,
        RamReadWriteCheckingParams.new, hp1, hp2, List.drop_drop, List.reverse_append, List.append_assoc,
        Nat.add_comm logT logK, Nat.add_assoc]
    rw [haddress, List.append_assoc, List.take_left' hlength]
  exact ⟨_, _, _, hcheck, hraf, hraf, hpoint, hpoint, hlength⟩

/-! ## The prover -/

/-- `OutputSumcheckProver`, with the number of the round. -/
structure OutputSumcheckProver (F C : Type) where
  valFinal : List F
  valIo : List F
  eqRAddress : GruenSplitEqPolynomial F C
  ioMask : List F
  numZeroAddressVars : Nat
  round : Nat

namespace OutputSumcheckProver

variable (op : OutputSumcheckParams C)

/-- `initialize`. -/
def start (finalRamState : List U64) : Option (OutputSumcheckProver F C) := do
  let K := finalRamState.length
  let ioStart ← remapped op.programIo.memoryLayout.inputStart op.programIo.memoryLayout
  let ioEnd ← remapped ramStartAddress op.programIo.memoryLayout
  if ioStart ≤ ioEnd ∧ ioEnd ≤ K then
    .some {
      valFinal := finalRamState.map fun word => (word.toNat : F)
      valIo := tableOf K fun k => if ioStart ≤ k ∧ k < ioEnd then ((finalRamState.getD k 0).toNat : F) else 0
      ioMask := tableOf K fun k => if ioStart ≤ k ∧ k < ioEnd then 1 else 0
      eqRAddress := ← GruenSplitEqPolynomial.newWithScaling op.rAddress .lowToHigh .none
      numZeroAddressVars := min (min (EqPolynomial.trailingZeros 64 ioStart) (EqPolynomial.trailingZeros 64 ioEnd)) (← log2 K)
      round := 0 }
  else .none

/-- The constant and the leading coefficient of a pair. -/
def pairCoeffs (s : OutputSumcheckProver F C) (g : Nat) : Option (List F) := do
  let io0 ← s.ioMask[2 * g]?
  let io1 ← s.ioMask[2 * g + 1]?
  let vf0 ← s.valFinal[2 * g]?
  let vf1 ← s.valFinal[2 * g + 1]?
  let vio0 ← s.valIo[2 * g]?
  let vio1 ← s.valIo[2 * g + 1]?
  let v0 := vf0 - vio0
  let v1 := vf1 - vio1
  .some [io0 * v0, (io1 - io0) * (v1 - v0)]

/-- `compute_message`. -/
def computeMessage [DecidableEq F] (s : OutputSumcheckProver F C) (previousClaim : F) : Option (UniPoly F) :=
  if op.IsInternalCycleGapRound s.round then .some ⟨[previousClaim * 2⁻¹]⟩
  else if s.round < s.numZeroAddressVars then .some ⟨[previousClaim * 2⁻¹]⟩
  else do
    let coeffs ← s.eqRAddress.parFoldOutInUnreduced 2 (pairCoeffs s)
    let qConstant ← coeffs[0]?
    let qQuadratic ← coeffs[1]?
    let gap := op.phase3CycleRounds
    if 0 < gap then
      s.eqRAddress.gruenPolyDeg3 (← mulPow2 qConstant gap) (← mulPow2 qQuadratic gap) previousClaim
    else s.eqRAddress.gruenPolyDeg3 qConstant qQuadratic previousClaim

/-- `ingest_challenge`. -/
def ingestChallenge (s : OutputSumcheckProver F C) (rJ : C) : Option (OutputSumcheckProver F C) :=
  if op.IsInternalCycleGapRound s.round then .some { s with round := s.round + 1 }
  else do
    .some { s with
      valFinal := DensePolynomial.bind .lowToHigh s.valFinal (Challenge.into rJ)
      valIo := DensePolynomial.bind .lowToHigh s.valIo (Challenge.into rJ)
      eqRAddress := ← s.eqRAddress.bind rJ
      ioMask := DensePolynomial.bind .lowToHigh s.ioMask (Challenge.into rJ)
      round := s.round + 1 }

/-- The prover of the sumcheck. -/
def prover [DecidableEq F] : FallibleProver (OutputSumcheckProver F C) F C where
  computeMessage := computeMessage op
  ingestChallenge := ingestChallenge op

omit [Challenge C F] in
/-- `cache_openings`. -/
def cacheOpenings (s : OutputSumcheckProver F C) (sumcheckChallenges : List C) : Option (List C × F) := do
  .some (op.normalizeOpeningPoint sumcheckChallenges, ← DensePolynomial.finalSumcheckClaim s.valFinal)

/-- The whole sumcheck: the messages, the last claim and the opening. -/
def run [DecidableEq F] (finalRamState : List U64) (claim : F) (rs : List C) :
    Option (List (UniPoly F) × F × List C × F) := do
  let (ps, s, last) ← (prover op).rounds (← start op finalRamState) claim rs
  .some (ps, last, ← cacheOpenings op s rs)

end OutputSumcheckProver

/-- `expected_output_claim`. -/
def OutputSumcheckParams.expectedOutputClaim (op : OutputSumcheckParams C) (valFinalClaim : F)
    (sumcheckChallenges : List C) : Option F := do
  let rAddressPrime := op.normalizeOpeningPoint sumcheckChallenges
  let ioMask ← RangeMaskPolynomial.new (← remapped op.programIo.memoryLayout.inputStart op.programIo.memoryLayout)
    (← remapped ramStartAddress op.programIo.memoryLayout)
  let eqEval := EqPolynomial.mle (coordinates F op.rAddress) (coordinates F rAddressPrime)
  let ioMaskEval ← ioMask.evaluateMle rAddressPrime
  let valIoEval ← evalIoMle op.programIo rAddressPrime
  .some (eqEval * ioMaskEval * (valFinalClaim - valIoEval))

/-! ## The direct sumcheck -/

section Spec

variable (op : OutputSumcheckParams C) (finalRamState : List U64)

namespace OutputSumcheckParams

/-- The words of the I/O. -/
def InRegion (k : Nat) : Prop :=
  op.programIo.memoryLayout.wordIndex op.programIo.memoryLayout.inputStart ≤ k ∧
    k < op.programIo.memoryLayout.wordIndex ramStartAddress

instance (k : Nat) : Decidable (op.InRegion k) := inferInstanceAs (Decidable (_ ∧ _))

/-- The multilinear extension of the mask. -/
def ioMask : List F → F := mleOf op.logK fun k => if op.InRegion k then 1 else 0

/-- The multilinear extension of the words at the end. -/
def valFinal : List F → F := mleOf op.logK fun k => ((finalRamState.getD k 0).toNat : F)

/-- The multilinear extension of the words of the I/O. -/
def valIo : List F → F := mleOf op.logK fun k => if op.InRegion k then ((finalRamState.getD k 0).toNat : F) else 0

/-- What is summed over the addresses. -/
def addressSummand (y : List F) : F :=
  eqMle (coordinates F op.rAddress) y * (op.ioMask y * (op.valFinal finalRamState y - op.valIo finalRamState y))

/-- What the direct sumcheck sums, a function of the address in the rounds of all variables. -/
def summand (x : List F) : F :=
  op.addressSummand finalRamState (x.take (op.logK - op.phase2NumRounds) ++
    x.drop (op.logK - op.phase2NumRounds + op.phase3CycleRounds))

end OutputSumcheckParams

end Spec

/-! ## The rounds of the cycle variables -/

namespace OutputSumcheckParams

variable (op : OutputSumcheckParams C) (finalRamState : List U64)

/-- The address variables bound in the third phase. -/
def phase3AddressRounds : Nat := op.logK - op.phase2NumRounds

variable {op finalRamState}

theorem cubeSum_post {n : Nat} {y d b : List F} (hy : n + y.length = op.phase3AddressRounds)
    (hd : d.length = op.phase3CycleRounds) :
    cubeSum (op.summand finalRamState) n (y ++ (d ++ b)) = cubeSum (op.addressSummand finalRamState) n (y ++ b) := by
  refine sum_congr rfl fun i _ => ?_
  have hlength : (bitsPoint n i ++ y : List F).length = op.logK - op.phase2NumRounds := by
    rw [List.length_append, length_bitsPoint, hy, phase3AddressRounds]
  rw [summand, ← List.append_assoc, List.take_left' hlength, ← List.drop_drop, List.drop_left' hlength,
    List.drop_left' hd, List.append_assoc]

theorem cubeSum_gap {n : Nat} {d b : List F} (hd : n + d.length = op.phase3CycleRounds) :
    cubeSum (op.summand finalRamState) (op.phase3AddressRounds + n) (d ++ b) =
      2 ^ n * cubeSum (op.addressSummand finalRamState) op.phase3AddressRounds b := by
  have hterm : ∀ j ∈ range (2 ^ n), ∑ i ∈ range (2 ^ op.phase3AddressRounds),
      op.summand finalRamState (bitsPoint op.phase3AddressRounds i ++ (bitsPoint n j ++ (d ++ b))) =
        cubeSum (op.addressSummand finalRamState) op.phase3AddressRounds b := fun j _ => by
    have hpost := @cubeSum_post F C _ _ op finalRamState op.phase3AddressRounds [] (bitsPoint n j ++ d) b
      (by simp) (by rw [List.length_append, length_bitsPoint, hd])
    rw [List.append_assoc] at hpost
    exact hpost
  rw [cubeSum_add, cubeSum, sum_congr rfl hterm, sum_const, card_range, nsmul_eq_mul]
  push_cast
  rfl

theorem cubeSum_pre (n : Nat) (b : List F) :
    cubeSum (op.summand finalRamState) (op.phase3AddressRounds + op.phase3CycleRounds + n) b =
      2 ^ op.phase3CycleRounds * cubeSum (op.addressSummand finalRamState) (op.phase3AddressRounds + n) b := by
  rw [cubeSum_add, cubeSum, cubeSum_add, cubeSum, mul_sum]
  refine sum_congr rfl fun j _ => ?_
  have hgap := @cubeSum_gap F C _ _ op finalRamState op.phase3CycleRounds [] (bitsPoint n j ++ b) (by simp)
  exact hgap

/-! ## The rounds that are skipped -/

omit [Challenge C F] in
/-- A multilinear extension, the first coordinates Boolean. -/
theorem mleOf_block (f : Nat → F) {n i : Nat} {y : List F} (hi : i < 2 ^ n) :
    mleOf (n + y.length) f (bitsPoint n i ++ y) =
      ∑ j ∈ range (2 ^ y.length), eqMle y (bitsPoint y.length j) * f (i * 2 ^ y.length + j) := by
  rw [← (affine_mleOf (n + y.length) f).sum_eqMle]
  refine sum_congr rfl fun j hj => ?_
  have hj := mem_range.mp hj
  have hlt : i * 2 ^ y.length + j < 2 ^ (n + y.length) := by
    rw [pow_add]
    exact split_lt hi hj
  rw [← bitsPoint_append n y.length hj, mleOf_bitsPoint f hlt]

/-- The low address variables that bound no part of the I/O. -/
def numZeroAddressVars (op : OutputSumcheckParams C) : Nat :=
  min (min (EqPolynomial.trailingZeros 64 (op.programIo.memoryLayout.wordIndex op.programIo.memoryLayout.inputStart))
    (EqPolynomial.trailingZeros 64 (op.programIo.memoryLayout.wordIndex ramStartAddress))) op.logK

/-- A block of so many addresses is of the I/O, or none of it is. -/
theorem inRegion_block {l i j : Nat} (hl : l ≤ op.numZeroAddressVars) (hj : j < 2 ^ l) :
    op.InRegion (i * 2 ^ l + j) ↔ op.InRegion (i * 2 ^ l) := by
  have hdvd : ∀ n, l ≤ EqPolynomial.trailingZeros 64 n → 2 ^ l ∣ n := fun n hn =>
    (Nat.pow_dvd_pow 2 hn).trans (EqPolynomial.pow_trailingZeros_dvd 64 n)
  rw [numZeroAddressVars] at hl
  obtain ⟨a, ha⟩ := hdvd (op.programIo.memoryLayout.wordIndex op.programIo.memoryLayout.inputStart) (by omega)
  obtain ⟨b, hb⟩ := hdvd (op.programIo.memoryLayout.wordIndex ramStartAddress) (by omega)
  have hle : ∀ c, 2 ^ l * c ≤ i * 2 ^ l + j ↔ 2 ^ l * c ≤ i * 2 ^ l := fun c => by
    constructor
    · intro h
      rw [Nat.mul_comm] at h ⊢
      refine Nat.mul_le_mul_right _ (Nat.lt_succ_iff.mp (Nat.lt_of_mul_lt_mul_right (a := 2 ^ l) ?_))
      rw [Nat.succ_mul]
      omega
    · omega
  rw [InRegion, InRegion, ha, hb, hle, ← Nat.not_le, ← Nat.not_le, hle]

/-- In the blocks of addresses within the skipped variables the summand vanishes. -/
theorem addressSummand_zero {n : Nat} {y : List F} (hn : n + y.length = op.logK)
    (hy : y.length ≤ op.numZeroAddressVars) : cubeSum (op.addressSummand finalRamState) n y = 0 := by
  refine sum_eq_zero fun i hi => mul_eq_zero_of_right _ ?_
  have hi := mem_range.mp hi
  rw [ioMask, valFinal, valIo, ← hn, mleOf_block _ hi, mleOf_block _ hi, mleOf_block _ hi]
  by_cases hin : op.InRegion (i * 2 ^ y.length)
  · refine mul_eq_zero_of_right _ (sub_eq_zero.mpr (sum_congr rfl fun j hj => ?_))
    rw [if_pos ((inRegion_block hy (mem_range.mp hj)).mpr hin)]
  · refine mul_eq_zero_of_left (sum_eq_zero fun j hj => ?_) _
    rw [if_neg fun h => hin ((inRegion_block hy (mem_range.mp hj)).mp h), mul_zero]

/-- At the Boolean points nothing is left: the sum is zero. -/
theorem addressSummand_sum : cubeSum (op.addressSummand finalRamState : List F → F) op.logK [] = 0 :=
  addressSummand_zero (Nat.add_zero _) (Nat.zero_le _)

/-! ## A pair of addresses -/

variable (op finalRamState)

/-- The words outside of the I/O. -/
def valRest (y : List F) : F := op.valFinal finalRamState y - op.valIo finalRamState y

/-- The constant coefficient of a pair. -/
def pairConstant (k : Nat) (y : List F) (g : Nat) : F :=
  op.ioMask (bitsPoint k g ++ 0 :: y) * op.valRest finalRamState (bitsPoint k g ++ 0 :: y)

/-- The leading coefficient of a pair. -/
def pairLeading (k : Nat) (y : List F) (g : Nat) : F :=
  (op.ioMask (bitsPoint k g ++ 1 :: y) - op.ioMask (bitsPoint k g ++ 0 :: y)) *
    (op.valRest finalRamState (bitsPoint k g ++ 1 :: y) - op.valRest finalRamState (bitsPoint k g ++ 0 :: y))

/-- The linear coefficient of a pair. -/
def pairLinear (k : Nat) (y : List F) (g : Nat) : F :=
  op.ioMask (bitsPoint k g ++ 0 :: y) *
      (op.valRest finalRamState (bitsPoint k g ++ 1 :: y) - op.valRest finalRamState (bitsPoint k g ++ 0 :: y)) +
    (op.ioMask (bitsPoint k g ++ 1 :: y) - op.ioMask (bitsPoint k g ++ 0 :: y)) *
      op.valRest finalRamState (bitsPoint k g ++ 0 :: y)

variable {op finalRamState}

theorem quadraticSum_pairs (k : Nat) (y : List F) (x : F) :
    quadraticSum (coordinates F op.rAddress) (op.pairConstant finalRamState k y) (op.pairLinear finalRamState k y)
      (op.pairLeading finalRamState k y) k y x = cubeSum (op.addressSummand finalRamState) k (x :: y) := by
  refine sum_congr rfl fun g _ => congrArg (_ * ·) ?_
  have hmask : op.ioMask (bitsPoint k g ++ x :: y) = line x (op.ioMask (bitsPoint k g ++ 0 :: y))
    (op.ioMask (bitsPoint k g ++ 1 :: y)) := affine_mleOf _ _ _ x y
  have hfinal : op.valFinal finalRamState (bitsPoint k g ++ x :: y) =
    line x (op.valFinal finalRamState (bitsPoint k g ++ 0 :: y))
      (op.valFinal finalRamState (bitsPoint k g ++ 1 :: y)) := affine_mleOf _ _ _ x y
  have hio : op.valIo finalRamState (bitsPoint k g ++ x :: y) =
    line x (op.valIo finalRamState (bitsPoint k g ++ 0 :: y))
      (op.valIo finalRamState (bitsPoint k g ++ 1 :: y)) := affine_mleOf _ _ _ x y
  rw [hmask, hfinal, hio, pairConstant, pairLinear, pairLeading]
  simp only [line, valRest]
  ring

end OutputSumcheckParams

/-! ## The prover's rounds -/

namespace OutputSumcheckParams

variable (op : OutputSumcheckParams C) (finalRamState : List U64)

/-- What the check is over: phases within the variables, a state of so many words with the public I/O
where it belongs, and RAM that begins below its end. -/
structure WellFormed : Prop where
  phase1 : op.phase1NumRounds ≤ op.logT
  phase2 : op.phase2NumRounds ≤ op.logK
  cycles : op.logT < 64
  address : op.rAddress.length = op.logK
  state : finalRamState.length = 2 ^ op.logK
  ram : op.programIo.memoryLayout.wordIndex ramStartAddress < 2 ^ op.logK
  inputs : op.programIo.inputs.length ≤ op.programIo.memoryLayout.maxInputSize
  outputs : op.programIo.outputs.length ≤ op.programIo.memoryLayout.maxOutputSize
  word : ∀ b ∈ op.programIo.ioBlocks, ∀ j < b.2.length, finalRamState.getD (b.1 + j) 0 = b.2.getD j 0
  zero : ∀ k, op.InRegion k → (∀ b ∈ op.programIo.ioBlocks, ¬ WordBlock.Has b k) → finalRamState.getD k 0 = 0

/-- The challenges of the addresses so far, the last first. -/
def boundAddress (z : List F) : List F := addressPoint op.phase2NumRounds op.phase3CycleRounds z.reverse

/-- The round after the challenges of `z` is exact: it is one of a cycle variable, or skipped, or it
does not divide by zero and its coefficients, if scaled behind the cycle variables, vanish. -/
def RoundExact (z : List F) : Prop :=
  op.IsInternalCycleGapRound z.length ∨ z.length < op.numZeroAddressVars ∨
    eqMle ((coordinates F op.rAddress).drop (op.logK - (op.boundAddress z).length - 1)) (1 :: op.boundAddress z) ≠ 0 ∧
      (z.length < op.phase2NumRounds ∨ op.phase3CycleRounds = 0 ∨
        weightedAtOne (coordinates F op.rAddress)
            (op.pairConstant finalRamState (op.logK - (op.boundAddress z).length - 1) (op.boundAddress z))
            (op.logK - (op.boundAddress z).length - 1) (op.boundAddress z) = 0 ∧
          weightedAtOne (coordinates F op.rAddress)
            (op.pairLeading finalRamState (op.logK - (op.boundAddress z).length - 1) (op.boundAddress z))
            (op.logK - (op.boundAddress z).length - 1) (op.boundAddress z) = 0)

end OutputSumcheckParams

namespace OutputSumcheckProver

open GruenSplitEqPolynomial (LowAt)

variable {op : OutputSumcheckParams C} {finalRamState : List U64} {n : Nat} {z : List F} {s : OutputSumcheckProver F C}

/-- The challenges by the rounds they belong to: addresses, cycles, addresses. -/
structure Phases (op : OutputSumcheckParams C) (pre dummy post : List C) : Prop where
  before : pre.length ≤ op.phase2NumRounds
  between : dummy.length ≤ op.phase3CycleRounds
  behind : post.length ≤ op.phase3AddressRounds
  first : pre.length < op.phase2NumRounds → dummy = [] ∧ post = []
  second : dummy.length < op.phase3CycleRounds → post = []

/-- The state with the challenges of `z` bound. -/
structure At (op : OutputSumcheckParams C) (finalRamState : List U64) (n : Nat) (z : List F)
    (s : OutputSumcheckProver F C) : Prop where
  bound : ∃ pre dummy post : List C, Phases op pre dummy post ∧ z = (coordinates F (pre ++ dummy ++ post)).reverse ∧
    n + (pre ++ dummy ++ post).length = op.phase3AddressRounds + op.phase3CycleRounds + op.phase2NumRounds ∧
    s.round = (pre ++ dummy ++ post).length ∧ LowAt 1 op.rAddress (pre ++ post) s.eqRAddress ∧
    s.valFinal = tableLow (op.valFinal finalRamState) (op.logK - (pre ++ post).length) (coordinates F (pre ++ post)).reverse ∧
    s.valIo = tableLow (op.valIo finalRamState) (op.logK - (pre ++ post).length) (coordinates F (pre ++ post)).reverse ∧
    s.ioMask = tableLow op.ioMask (op.logK - (pre ++ post).length) (coordinates F (pre ++ post)).reverse
  numZero : s.numZeroAddressVars = op.numZeroAddressVars

theorem Phases.boundAddress {pre dummy post : List C} (h : Phases op pre dummy post) :
    op.boundAddress (coordinates F (pre ++ dummy ++ post)).reverse = (coordinates F (pre ++ post)).reverse := by
  rw [OutputSumcheckParams.boundAddress, List.reverse_reverse, addressPoint]
  refine congrArg List.reverse ?_
  have happ : ∀ l m : List C, coordinates F (l ++ m) = coordinates F l ++ coordinates F m := fun l m => List.map_append
  rw [happ, happ, happ]
  rcases h.before.lt_or_eq with hlt | heq
  · obtain ⟨rfl, rfl⟩ := h.first hlt
    have hpre : (coordinates F pre).length ≤ op.phase2NumRounds := by rw [length_coordinates]; omega
    simp only [coordinates, List.map_nil, List.append_nil] at hpre ⊢
    rw [List.take_of_length_le hpre, List.drop_of_length_le (by omega), List.append_nil]
  · have hpre : (coordinates F pre).length = op.phase2NumRounds := by rw [length_coordinates, heq]
    rw [List.append_assoc, List.take_left' hpre, ← List.drop_drop, List.drop_left' hpre]
    rcases h.between.lt_or_eq with hlt | heq
    · rw [h.second hlt]
      simp only [coordinates, List.map_nil, List.append_nil]
      rw [List.drop_of_length_le (by rw [List.length_map]; omega), List.append_nil]
    · rw [List.drop_left' (by rw [length_coordinates, heq])]

/-- A round of an address, neither of the cycles nor skipped, is a scaled round. -/
theorem computeMessage_fold [DecidableEq F] (hcycles : op.logT < 64) (hgap : ¬ op.IsInternalCycleGapRound s.round)
    (hzero : ¬ s.round < s.numZeroAddressVars) (claim : F) :
    computeMessage op s claim = gruenRoundScaled s.eqRAddress (pairCoeffs s) (2 ^ op.phase3CycleRounds) claim := by
  have hpow : ∀ q : F, mulPow2 q op.phase3CycleRounds = .some (q * 2 ^ op.phase3CycleRounds) := fun q =>
    mulPow2_eq (by rw [OutputSumcheckParams.phase3CycleRounds]; omega)
  rw [computeMessage, if_neg hgap, if_neg hzero, gruenRoundScaled]
  simp only [hpow, Option.bind_eq_bind, Option.bind_some]
  refine Option.bind_congr fun coeffs _ => ?_
  refine Option.bind_congr fun c _ => ?_
  refine Option.bind_congr fun e _ => ?_
  split_ifs with hpos
  · rfl
  · rw [Nat.eq_zero_of_not_pos hpos, pow_zero, mul_one, mul_one]

omit [Challenge C F] in
theorem pairCoeffs_eq {k : Nat} {y : List F} (hfinal : s.valFinal = tableLow (op.valFinal finalRamState) (k + 1) y)
    (hio : s.valIo = tableLow (op.valIo finalRamState) (k + 1) y) (hmask : s.ioMask = tableLow op.ioMask (k + 1) y) :
    ∀ g < 2 ^ k, pairCoeffs s g = .some [op.pairConstant finalRamState k y g, op.pairLeading finalRamState k y g] := by
  intro g hg
  rw [pairCoeffs, hfinal, hio, hmask]
  simp only [getElem?_tableLow_even hg, getElem?_tableLow_odd hg, Option.bind_eq_bind, Option.bind_some]
  rfl

end OutputSumcheckProver

namespace OutputSumcheckProver

open GruenSplitEqPolynomial (LowAt)

section Messages

variable [DecidableEq F] {op : OutputSumcheckParams C} {finalRamState : List U64} {n : Nat} {z : List F}
  {s : OutputSumcheckProver F C}

/-- The message is that of the direct sumcheck just where the round is exact. -/
def MessageJust (op : OutputSumcheckParams C) (finalRamState : List U64) (n : Nat) (z : List F)
    (s : OutputSumcheckProver F C) : Prop :=
  (op.RoundExact finalRamState z → ∃ p,
    computeMessage op s (cubeSum (op.summand finalRamState) (n + 1) z) = .some p ∧ p.coeffs ≠ [] ∧ p.coeffs.length ≤ 3 + 1 ∧
      ∀ x, horner x p.coeffs = cubeSum (op.summand finalRamState) n (x :: z)) ∧
  (¬ op.RoundExact finalRamState z → ∀ p,
    computeMessage op s (cubeSum (op.summand finalRamState) (n + 1) z) = .some p →
      ¬ ∀ x, horner x p.coeffs = cubeSum (op.summand finalRamState) n (x :: z))

/-- A constant message, where the sum does not depend on the variable of the round. -/
theorem messageJust_half (hexact : op.RoundExact finalRamState z)
    (hmessage : computeMessage op s (cubeSum (op.summand finalRamState) (n + 1) z) =
      .some ⟨[cubeSum (op.summand finalRamState) (n + 1) z * 2⁻¹]⟩)
    (hconst : ∀ x, cubeSum (op.summand finalRamState) n (x :: z) = cubeSum (op.summand finalRamState) n (0 :: z)) :
    MessageJust op finalRamState n z s := by
  refine ⟨fun _ => ⟨_, hmessage, List.cons_ne_nil _ _, by simp, fun x => ?_⟩, fun hnot => absurd hexact hnot⟩
  have htwo := JoltField.two_ne_zero (F := F)
  rw [cubeSum_succ, hconst 1, hconst x, ← two_mul, mul_comm, ← mul_assoc, inv_mul_cancel₀ htwo, one_mul]
  simp [horner]

/-- A round of an address whose sum is that over the addresses, times what the cycles leave. -/
theorem messageJust_address (h : op.WellFormed finalRamState) (hthree : (3 : F) ≠ 0) {k : Nat} {cs : List C}
    (hk : k + 1 + cs.length = op.logK) (hlow : LowAt 1 op.rAddress cs s.eqRAddress)
    (hfinal : s.valFinal = tableLow (op.valFinal finalRamState) (k + 1) (coordinates F cs).reverse)
    (hio : s.valIo = tableLow (op.valIo finalRamState) (k + 1) (coordinates F cs).reverse)
    (hmask : s.ioMask = tableLow op.ioMask (k + 1) (coordinates F cs).reverse)
    (hnum : s.numZeroAddressVars = op.numZeroAddressVars) (hround : s.round = z.length) (hle : cs.length ≤ z.length)
    (hbound : op.boundAddress z = (coordinates F cs).reverse) (hnot : ¬ op.IsInternalCycleGapRound z.length) {j : F}
    (hcube : ∀ x, cubeSum (op.summand finalRamState) n (x :: z) =
      j * cubeSum (op.addressSummand finalRamState) k (x :: (coordinates F cs).reverse))
    (hj : z.length < op.phase2NumRounds ∨ op.phase3CycleRounds = 0 ↔ (2 : F) ^ op.phase3CycleRounds = j) :
    MessageJust op finalRamState n z s := by
  by_cases hskip : z.length < op.numZeroAddressVars
  · have hzero : ∀ x, cubeSum (op.summand finalRamState) n (x :: z) = 0 := fun x => by
      rw [hcube, OutputSumcheckParams.addressSummand_zero, mul_zero]
      · rw [List.length_cons, List.length_reverse, length_coordinates]
        omega
      · rw [List.length_cons, List.length_reverse, length_coordinates]
        omega
    refine messageJust_half (.inr (.inl hskip)) ?_ fun x => by rw [hzero, hzero]
    rw [computeMessage, if_neg (by rwa [hround]), if_pos (by rwa [hround, hnum])]
  · have hquad : ∀ x, cubeSum (op.summand finalRamState) n (x :: z) = j * quadraticSum (coordinates F op.rAddress)
        (op.pairConstant finalRamState k (coordinates F cs).reverse)
        (op.pairLinear finalRamState k (coordinates F cs).reverse)
        (op.pairLeading finalRamState k (coordinates F cs).reverse) k (coordinates F cs).reverse x := fun x => by
      rw [hcube, OutputSumcheckParams.quadraticSum_pairs]
    have hlast : op.logK - (coordinates F cs).reverse.length - 1 = k := by
      rw [List.length_reverse, length_coordinates]
      omega
    have hmessage := computeMessage_fold (s := s) h.cycles (by rwa [hround]) (by rwa [hround, hnum])
      (cubeSum (op.summand finalRamState) (n + 1) z)
    have hgruen := gruenRoundScaled_eq hlow (by rw [h.address]; exact hk) hthree (pairCoeffs_eq hfinal hio hmask)
      (2 ^ op.phase3CycleRounds) j (cubeSum (op.summand finalRamState) (n + 1) z)
      (by rw [cubeSum_succ, hquad, hquad, mul_add])
    simp only [← hquad] at hgruen
    have hexact : op.RoundExact finalRamState z ↔
        eqMle ((coordinates F op.rAddress).drop k) (1 :: (coordinates F cs).reverse) ≠ 0 ∧
          ((2 : F) ^ op.phase3CycleRounds = j ∨
            weightedAtOne (coordinates F op.rAddress) (op.pairConstant finalRamState k (coordinates F cs).reverse) k
                (coordinates F cs).reverse = 0 ∧
              weightedAtOne (coordinates F op.rAddress) (op.pairLeading finalRamState k (coordinates F cs).reverse) k
                (coordinates F cs).reverse = 0) := by
      rw [OutputSumcheckParams.RoundExact, hbound, hlast, ← hj, or_assoc]
      simp only [hnot, hskip, false_or]
    rw [MessageJust, hmessage, hexact]
    constructor
    · rintro ⟨hdivides, hscale⟩
      obtain ⟨p, hp, hlen, hvalue⟩ := hgruen.2 hdivides
      exact ⟨p, hp, List.ne_nil_of_length_eq_add_one hlen, hlen.le, hvalue.mpr hscale⟩
    · intro hbad p hp hvalues
      by_cases hdivides : eqMle ((coordinates F op.rAddress).drop k) (1 :: (coordinates F cs).reverse) = 0
      · rw [hgruen.1 hdivides] at hp
        cases hp
      · obtain ⟨p', hp', -, hvalue⟩ := hgruen.2 hdivides
        cases hp.symm.trans hp'
        exact hbad ⟨hdivides, hvalue.mp hvalues⟩

theorem Phases.cases {pre dummy post : List C} (h : Phases op pre dummy post) :
    (pre.length < op.phase2NumRounds ∧ dummy = [] ∧ post = []) ∨
      (pre.length = op.phase2NumRounds ∧ dummy.length < op.phase3CycleRounds ∧ post = []) ∨
      (pre.length = op.phase2NumRounds ∧ dummy.length = op.phase3CycleRounds) := by
  rcases h.before.lt_or_eq with hlt | heq
  · exact .inl ⟨hlt, h.first hlt⟩
  · rcases h.between.lt_or_eq with hlt | heq'
    · exact .inr (.inl ⟨heq, hlt, h.second hlt⟩)
    · exact .inr (.inr ⟨heq, heq'⟩)

omit [DecidableEq F] in
theorem coordinates_reverse (l m : List C) :
    (coordinates F (l ++ m)).reverse = (coordinates F m).reverse ++ (coordinates F l).reverse := by
  rw [coordinates, List.map_append, List.reverse_append]
  rfl

theorem At.message (h : op.WellFormed finalRamState) (hthree : (3 : F) ≠ 0)
    (hpow : ∀ k, 0 < k → k < 64 → (2 : F) ^ k ≠ 1) (hs : At op finalRamState (n + 1) z s) :
    MessageJust op finalRamState n z s := by
  obtain ⟨pre, dummy, post, hphases, rfl, hn, hround, hlow, hfinal, hio, hmask⟩ := hs.bound
  have hphase2 := h.phase2
  have haddresses : op.phase3AddressRounds + op.phase2NumRounds = op.logK := by
    rw [OutputSumcheckParams.phase3AddressRounds]
    omega
  have hbound := hphases.boundAddress (F := F)
  have hlength : (coordinates F (pre ++ dummy ++ post)).reverse.length = (pre ++ dummy ++ post).length := by
    rw [List.length_reverse, length_coordinates]
  simp only [List.length_append] at hn hround hlength hfinal hio hmask
  rcases hphases.cases with ⟨hpre, rfl, rfl⟩ | ⟨hpre, hdummy, rfl⟩ | ⟨hpre, hdummy⟩
  · -- an address of the second phase: the cycles are still to be summed over
    simp only [List.length_nil, List.append_nil, Nat.add_zero] at *
    obtain ⟨k, hk⟩ : ∃ k, k + 1 + pre.length = op.logK := ⟨op.logK - pre.length - 1, by omega⟩
    rw [show op.logK - pre.length = k + 1 by omega] at hfinal hio hmask
    refine messageJust_address h hthree hk hlow hfinal hio hmask hs.numZero (by rw [hlength, hround]) hlength.ge hbound
      (fun hgap => ?_) (j := 2 ^ op.phase3CycleRounds) (fun x => ?_) ⟨fun _ => rfl, fun _ => .inl ?_⟩
    · have := hgap.1
      omega
    · have hrounds : n = op.phase3AddressRounds + op.phase3CycleRounds + (op.phase2NumRounds - pre.length - 1) := by omega
      have hkeys : k = op.phase3AddressRounds + (op.phase2NumRounds - pre.length - 1) := by omega
      rw [hrounds, hkeys, OutputSumcheckParams.cubeSum_pre]
    · rw [hlength]
      exact hpre
  · -- a cycle of the third phase: the address does not change
    simp only [List.length_nil, List.append_nil, Nat.add_zero] at *
    have hgap : op.IsInternalCycleGapRound (pre.length + dummy.length) := ⟨by omega, by omega⟩
    refine messageJust_half (.inl (by rwa [hlength])) (by rw [computeMessage, if_pos (by rwa [hround])]) fun x => ?_
    obtain ⟨j, hj⟩ : ∃ j, j + (dummy.length + 1) = op.phase3CycleRounds :=
      ⟨op.phase3CycleRounds - (dummy.length + 1), by omega⟩
    have hrounds : n = op.phase3AddressRounds + j := by omega
    have hgap := fun x => @OutputSumcheckParams.cubeSum_gap F C _ _ op finalRamState j (x :: (coordinates F dummy).reverse)
      (coordinates F pre).reverse (by rw [List.length_cons, List.length_reverse, length_coordinates]; exact hj)
    rw [coordinates_reverse, hrounds, ← List.cons_append, ← List.cons_append, hgap, hgap]
  · -- an address of the third phase, all cycles bound
    obtain ⟨k, hk⟩ : ∃ k, k + 1 + (pre ++ post).length = op.logK :=
      ⟨op.logK - (pre ++ post).length - 1, by rw [List.length_append]; omega⟩
    rw [List.length_append] at hk
    rw [show op.logK - (pre.length + post.length) = k + 1 by omega] at hfinal hio hmask
    refine messageJust_address h hthree (by rwa [List.length_append]) hlow hfinal hio hmask hs.numZero
      (by rw [hlength, hround]) (by rw [hlength, List.length_append]; omega) hbound
      (fun hgap => ?_) (j := 1) (fun x => ?_) ⟨fun hcase => ?_, fun hone => .inr ?_⟩
    · have := hgap.2
      omega
    · have hrounds : n = k := by omega
      have hpost := @OutputSumcheckParams.cubeSum_post F C _ _ op finalRamState k (x :: (coordinates F post).reverse)
        (coordinates F dummy).reverse (coordinates F pre).reverse
        (by rw [List.length_cons, List.length_reverse, length_coordinates]; omega)
        (by rw [List.length_reverse, length_coordinates, hdummy])
      rw [one_mul, hrounds, coordinates_reverse, coordinates_reverse, coordinates_reverse]
      exact hpost
    · rcases hcase with hlt | hzero
      · omega
      · rw [hzero, pow_zero]
    · by_contra hne
      refine hpow _ (Nat.pos_of_ne_zero hne) ?_ hone
      have := h.cycles
      rw [OutputSumcheckParams.phase3CycleRounds]
      omega

end Messages

end OutputSumcheckProver

namespace OutputSumcheckProver

open GruenSplitEqPolynomial (LowAt)

variable {op : OutputSumcheckParams C} {finalRamState : List U64} {n : Nat} {z : List F} {s : OutputSumcheckProver F C}

/-- A binding of an address, whichever phase it is of. -/
theorem ingestChallenge_address (hnot : ¬ op.IsInternalCycleGapRound s.round) {k : Nat} {cs : List C}
    (hk : k + 1 + cs.length = op.logK) (hlength : op.rAddress.length = op.logK) (hlow : LowAt 1 op.rAddress cs s.eqRAddress)
    (hfinal : s.valFinal = tableLow (op.valFinal finalRamState) (k + 1) (coordinates F cs).reverse)
    (hio : s.valIo = tableLow (op.valIo finalRamState) (k + 1) (coordinates F cs).reverse)
    (hmask : s.ioMask = tableLow op.ioMask (k + 1) (coordinates F cs).reverse) (r : C) :
    ∃ eq, ingestChallenge op s r = .some { s with
        valFinal := tableLow (op.valFinal finalRamState) k (coordinates F (cs ++ [r])).reverse
        valIo := tableLow (op.valIo finalRamState) k (coordinates F (cs ++ [r])).reverse
        eqRAddress := eq
        ioMask := tableLow op.ioMask k (coordinates F (cs ++ [r])).reverse
        round := s.round + 1 } ∧ LowAt 1 op.rAddress (cs ++ [r]) eq := by
  obtain ⟨eq, heq, hbound⟩ := hlow.bind (by omega) r
  refine ⟨eq, ?_, hbound⟩
  have hcons : (coordinates F (cs ++ [r])).reverse = Challenge.into r :: (coordinates F cs).reverse := by
    rw [coordinates_reverse]
    rfl
  rw [ingestChallenge, if_neg hnot, heq, hfinal, hio, hmask, hcons]
  simp only [Option.bind_eq_bind, Option.bind_some]
  rw [OutputSumcheckParams.valFinal, OutputSumcheckParams.valIo, OutputSumcheckParams.ioMask,
    bind_tableLow (affine_mleOf _ _), bind_tableLow (affine_mleOf _ _), bind_tableLow (affine_mleOf _ _)]

theorem At.challenge (h : op.WellFormed finalRamState) (hs : At op finalRamState (n + 1) z s) (r : C) :
    ∃ s', ingestChallenge op s r = .some s' ∧ At op finalRamState n (Challenge.into r :: z) s' := by
  obtain ⟨pre, dummy, post, hphases, rfl, hn, hround, hlow, hfinal, hio, hmask⟩ := hs.bound
  have hphase2 := h.phase2
  have haddresses : op.phase3AddressRounds + op.phase2NumRounds = op.logK := by
    rw [OutputSumcheckParams.phase3AddressRounds]
    omega
  have hcons : ∀ cs : List C, Challenge.into r :: (coordinates F cs).reverse = (coordinates F (cs ++ [r])).reverse :=
    fun cs => by
      rw [coordinates_reverse]
      rfl
  simp only [List.length_append] at hn hround
  rcases hphases.cases with ⟨hpre, rfl, rfl⟩ | ⟨hpre, hdummy, rfl⟩ | ⟨hpre, hdummy⟩
  · simp only [List.length_nil, List.append_nil, Nat.add_zero] at *
    obtain ⟨k, hk⟩ : ∃ k, k + 1 + pre.length = op.logK := ⟨op.logK - pre.length - 1, by omega⟩
    rw [show op.logK - pre.length = k + 1 by omega] at hfinal hio hmask
    obtain ⟨eq, hstep, hlow'⟩ := ingestChallenge_address (fun hgap => by have := hgap.1; omega) hk h.address hlow
      hfinal hio hmask r
    have hrest : op.logK - (pre ++ [r]).length = k := by
      rw [List.length_append, List.length_singleton]
      omega
    refine ⟨_, hstep, ⟨pre ++ [r], [], [], ⟨?_, Nat.zero_le _, Nat.zero_le _, fun _ => ⟨rfl, rfl⟩, fun _ => rfl⟩,
      ?_, ?_, ?_, ?_, ?_, ?_, ?_⟩, hs.numZero⟩
    · rw [List.length_append, List.length_singleton]
      omega
    · rw [hcons, List.append_nil, List.append_nil]
    · simp only [List.length_append, List.length_singleton, List.length_nil]
      omega
    · simp only [List.length_append, List.length_singleton, List.length_nil]
      omega
    · rwa [List.append_nil]
    · rw [List.append_nil, hrest]
    · rw [List.append_nil, hrest]
    · rw [List.append_nil, hrest]
  · simp only [List.length_nil, List.append_nil, Nat.add_zero] at *
    have hgap : op.IsInternalCycleGapRound s.round := ⟨by omega, by omega⟩
    refine ⟨{ s with round := s.round + 1 }, by rw [ingestChallenge, if_pos hgap],
      ⟨pre, dummy ++ [r], [], ⟨hphases.before, ?_, Nat.zero_le _, fun hlt => by omega, fun _ => rfl⟩, ?_, ?_, ?_, ?_, ?_,
        ?_, ?_⟩, hs.numZero⟩
    · rw [List.length_append, List.length_singleton]
      omega
    · rw [hcons, List.append_nil, List.append_assoc]
    · simp only [List.length_append, List.length_singleton, List.length_nil]
      omega
    · simp only [List.length_append, List.length_singleton, List.length_nil]
      omega
    · rwa [List.append_nil]
    · rwa [List.append_nil]
    · rwa [List.append_nil]
    · rwa [List.append_nil]
  · obtain ⟨k, hk⟩ : ∃ k, k + 1 + (pre ++ post).length = op.logK :=
      ⟨op.logK - (pre ++ post).length - 1, by rw [List.length_append]; omega⟩
    rw [show op.logK - (pre ++ post).length = k + 1 by omega] at hfinal hio hmask
    obtain ⟨eq, hstep, hlow'⟩ := ingestChallenge_address (fun hgap => by have := hgap.2; omega) hk h.address hlow
      hfinal hio hmask r
    have hrest : op.logK - (pre ++ (post ++ [r])).length = k := by
      rw [← List.append_assoc, List.length_append, List.length_singleton]
      omega
    rw [List.append_assoc] at hlow' hstep
    refine ⟨_, hstep, ⟨pre, dummy, post ++ [r], ⟨hphases.before, hphases.between, ?_, fun hlt => by omega,
      fun hlt => by omega⟩, ?_, ?_, ?_, hlow', ?_, ?_, ?_⟩, hs.numZero⟩
    · rw [List.length_append, List.length_singleton]
      omega
    · rw [hcons, List.append_assoc]
    · simp only [List.length_append, List.length_singleton]
      omega
    · simp only [List.length_append, List.length_singleton]
      omega
    · rw [hrest]
    · rw [hrest]
    · rw [hrest]

theorem exactJust [DecidableEq F] (h : op.WellFormed finalRamState) (hthree : (3 : F) ≠ 0)
    (hpow : ∀ k, 0 < k → k < 64 → (2 : F) ^ k ≠ 1) :
    (prover op : FallibleProver (OutputSumcheckProver F C) F C).ExactJust (op.summand finalRamState) 3
      (op.RoundExact finalRamState) (At op finalRamState) where
  message hs := (hs.message h hthree hpow).1
  other hs := (hs.message h hthree hpow).2
  challenge hs := hs.challenge h

end OutputSumcheckProver

/-! ## The layout -/

namespace OutputSumcheckParams

variable {op : OutputSumcheckParams C} {finalRamState : List U64}

theorem remapped_ram (op : OutputSumcheckParams C) :
    remapped ramStartAddress op.programIo.memoryLayout = .some (op.programIo.memoryLayout.wordIndex ramStartAddress) :=
  remapped_of_le (by have := op.programIo.wellFormed.lowest_add_le; omega) (by decide)

theorem remapped_input (h : op.programIo.memoryLayout.inputStart ≠ 0) :
    remapped op.programIo.memoryLayout.inputStart op.programIo.memoryLayout =
      .some (op.programIo.memoryLayout.wordIndex op.programIo.memoryLayout.inputStart) :=
  remapped_of_le op.programIo.wellFormed.lowest_le_input h

theorem WellFormed.region_lt (h : op.WellFormed finalRamState) :
    op.programIo.memoryLayout.wordIndex op.programIo.memoryLayout.inputStart <
      op.programIo.memoryLayout.wordIndex ramStartAddress := by
  have hordered := ioOrdered h.inputs h.outputs
  have h1 := hordered.inputs
  have h2 := hordered.outputs
  have h3 := hordered.panic
  have h4 := hordered.termination
  omega

theorem WellFormed.logK_pos (h : op.WellFormed finalRamState) : 0 < op.logK := by
  have hram := h.ram
  have hregion := h.region_lt
  refine Nat.pos_of_ne_zero fun hzero => ?_
  rw [hzero, pow_zero] at hram
  omega

end OutputSumcheckParams

/-! ## The whole check -/

theorem coordinates_addressPoint (m gap : Nat) (rs : List C) :
    (coordinates F (addressPoint m gap rs) : List F) = addressPoint m gap (coordinates F rs) := by
  simp only [addressPoint, coordinates, List.map_reverse, List.map_append, List.map_take, List.map_drop]

namespace OutputSumcheckParams

variable {op : OutputSumcheckParams C} {finalRamState : List U64}

theorem boundAddress_coordinates (rs : List C) :
    op.boundAddress (coordinates F rs).reverse = coordinates F (op.normalizeOpeningPoint rs) := by
  rw [boundAddress, List.reverse_reverse, normalizeOpeningPoint, coordinates_addressPoint]

theorem WellFormed.numRounds (h : op.WellFormed finalRamState) :
    op.numRounds = op.phase3AddressRounds + op.phase3CycleRounds + op.phase2NumRounds := by
  have hphase1 := h.phase1
  have hphase2 := h.phase2
  rw [OutputSumcheckParams.numRounds, phase3AddressRounds, phase3CycleRounds]
  omega

theorem WellFormed.length_point (h : op.WellFormed finalRamState) {rs : List C} (hrs : rs.length = op.numRounds) :
    (op.normalizeOpeningPoint rs).length = op.logK := by
  have hphase2 := h.phase2
  rw [h.numRounds, phase3AddressRounds] at hrs
  rw [normalizeOpeningPoint, addressPoint, List.length_reverse, List.length_append, List.length_take, List.length_drop]
  omega

/-- The claim of the input is the sum. -/
theorem WellFormed.sum_zero (h : op.WellFormed finalRamState) :
    cubeSum (op.summand finalRamState : List F → F) op.numRounds [] = 0 := by
  have hphase2 := h.phase2
  rw [h.numRounds, cubeSum_pre, show op.phase3AddressRounds + op.phase2NumRounds = op.logK by
    rw [phase3AddressRounds]; omega, addressSummand_sum, mul_zero]

omit [Challenge C F] in
theorem ioMask_eq {y : List F} (hy : y.length = op.logK) :
    op.ioMask y = RangeMaskPolynomial.indicatorMle
      (op.programIo.memoryLayout.wordIndex op.programIo.memoryLayout.inputStart)
      (op.programIo.memoryLayout.wordIndex ramStartAddress) y := by
  rw [ioMask, mleOf, RangeMaskPolynomial.indicatorMle, hy]
  refine sum_congr rfl fun k hk => ?_
  have hentry := eqAt_eq_eqMle y (by rw [hy]; exact mem_range.mp hk)
  rw [hy] at hentry
  rw [← hentry, mul_ite, mul_one, mul_zero]
  rfl

/-- The device's blocks are of the I/O. -/
theorem WellFormed.inRegion_block_word (h : op.WellFormed finalRamState) {b : WordBlock}
    (hb : b ∈ op.programIo.ioBlocks) {k : Nat} (hk : WordBlock.Has b k) : op.InRegion k := by
  have hend := ioBlocks_end h.inputs h.outputs b hb
  have hstart : op.programIo.memoryLayout.wordIndex op.programIo.memoryLayout.inputStart ≤ b.1 := by
    obtain ⟨hin, hout, hpanic, -⟩ := ioOrdered h.inputs h.outputs
    revert b
    simp only [JoltDevice.ioBlocks, List.forall_mem_cons]
    refine ⟨?_, ?_, ?_, ?_, by simp⟩
    · intros
      exact Nat.le_refl _
    · intros
      omega
    · intros
      omega
    · intros
      omega
  exact ⟨hstart.trans hk.1, hk.2.trans_le hend⟩

/-- The words of the I/O are those of the device. -/
theorem WellFormed.valIo_eq (h : op.WellFormed finalRamState) {r : List C} (hr : r.length = op.logK) :
    op.valIo finalRamState (coordinates F r) =
      (op.programIo.ioBlocks.map fun b => sliceEval (intoPoint r : List F) b.1 b.2).sum := by
  obtain ⟨state, hlength, hholds, hmle⟩ := WordBlock.exists_holds (F := F) (C := C)
    (ioBlocks_disjoint h.inputs h.outputs) fun b hb => (ioBlocks_end h.inputs h.outputs b hb).trans h.ram.le
  rw [← hmle r hr, valIo, mleOf, wordsMle, hr]
  refine sum_congr rfl fun k hk => ?_
  have hlt : k < 2 ^ (coordinates F r).length := by
    rw [length_coordinates, hr]
    exact mem_range.mp hk
  have hentry := eqAt_eq_eqMle (coordinates F r) hlt
  rw [length_coordinates, hr] at hentry
  have hword : (if op.InRegion k then ((finalRamState.getD k 0).toNat : F) else 0) = ((state.getD k 0).toNat : F) := by
    by_cases hhas : ∃ b ∈ op.programIo.ioBlocks, WordBlock.Has b k
    · obtain ⟨b, hb, hlow, hhigh⟩ := hhas
      obtain ⟨j, rfl⟩ := Nat.exists_eq_add_of_le hlow
      have hj : j < b.2.length := by omega
      rw [if_pos (h.inRegion_block_word hb ⟨hlow, hhigh⟩), h.word b hb j hj, hholds.word b hb j hj]
    · have hnone : ∀ b ∈ op.programIo.ioBlocks, ¬ WordBlock.Has b k := fun b hb hk => hhas ⟨b, hb, hk⟩
      rw [hholds.zero k hnone]
      split_ifs with hin
      · rw [h.zero k hin hnone]
      · exact Nat.cast_zero.symm
  rw [hword, ← hentry, mul_comm]
  rfl

theorem expectedOutputClaim_eq (h : op.WellFormed finalRamState) (hinput : op.programIo.memoryLayout.inputStart ≠ 0)
    {rs : List C} (hrs : rs.length = op.numRounds) :
    op.expectedOutputClaim (op.valFinal finalRamState (coordinates F (op.normalizeOpeningPoint rs))) rs =
      .some (op.addressSummand finalRamState (coordinates F (op.normalizeOpeningPoint rs))) := by
  have hlength := h.length_point hrs
  have haddressed : op.programIo.IoAddressed := by
    refine ⟨.inr hinput, .inr fun hzero => hinput ?_⟩
    have h1 := op.programIo.wellFormed.outputStart_eq
    have h2 := op.programIo.wellFormed.input_le
    omega
  have hmask := RangeMaskPolynomial.evaluateMle_eq (F := F)
    (op.programIo.memoryLayout.wordIndex op.programIo.memoryLayout.inputStart)
    (op.programIo.memoryLayout.wordIndex ramStartAddress) (op.normalizeOpeningPoint rs)
  rw [if_pos ⟨h.region_lt, by rw [hlength]; exact h.ram⟩] at hmask
  obtain ⟨mask, hnew, heval⟩ := Option.bind_eq_some_iff.mp hmask
  rw [expectedOutputClaim]
  simp only [remapped_ram, remapped_input hinput, Option.bind_eq_bind, Option.bind_some, hnew, heval,
    evalIoMle_eq hlength h.ram.le haddressed h.inputs h.outputs]
  rw [EqPolynomial.mle_eq, addressSummand, h.valIo_eq hlength, ioMask_eq (by rw [length_coordinates, hlength]),
    mul_assoc]
  rfl

end OutputSumcheckParams

namespace OutputSumcheckProver

variable {op : OutputSumcheckParams C} {finalRamState : List U64} {n : Nat} {z : List F} {s : OutputSumcheckProver F C}

theorem start_at (h : op.WellFormed finalRamState) (hinput : op.programIo.memoryLayout.inputStart ≠ 0) :
    ∃ s : OutputSumcheckProver F C, start op finalRamState = .some s ∧ At op finalRamState op.numRounds [] s := by
  obtain ⟨eq, heq, hlow⟩ := GruenSplitEqPolynomial.LowAt.new (F := F) (w := op.rAddress)
    (List.length_pos_iff.mp (h.address ▸ h.logK_pos)) .none
  have hfinal : finalRamState.map (fun word => (word.toNat : F)) = tableLow (op.valFinal finalRamState) op.logK [] := by
    rw [OutputSumcheckParams.valFinal, tableLow_mleOf, ← h.state]
    conv_lhs => rw [← tableOf_getD finalRamState 0, map_tableOf]
  have hK : finalRamState.length = 2 ^ op.logK := h.state
  refine ⟨{
    valFinal := finalRamState.map fun word => (word.toNat : F)
    valIo := tableOf finalRamState.length fun k => if op.InRegion k then ((finalRamState.getD k 0).toNat : F) else 0
    eqRAddress := eq
    ioMask := tableOf finalRamState.length fun k => if op.InRegion k then 1 else 0
    numZeroAddressVars := op.numZeroAddressVars
    round := 0 }, ?_, ⟨[], [], [], ⟨Nat.zero_le _, Nat.zero_le _, Nat.zero_le _, fun _ => ⟨rfl, rfl⟩, fun _ => rfl⟩,
      rfl, h.numRounds, rfl, hlow, hfinal, ?_, ?_⟩, rfl⟩
  · have hlog : log2 finalRamState.length = .some op.logK := by rw [hK, EqPolynomial.log2_pow]
    have hregion : op.programIo.memoryLayout.wordIndex op.programIo.memoryLayout.inputStart ≤
        op.programIo.memoryLayout.wordIndex ramStartAddress ∧
          op.programIo.memoryLayout.wordIndex ramStartAddress ≤ finalRamState.length :=
      ⟨h.region_lt.le, by rw [hK]; exact h.ram.le⟩
    rw [start]
    simp only [OutputSumcheckParams.remapped_ram, OutputSumcheckParams.remapped_input hinput, Option.bind_eq_bind,
      Option.bind_some, if_pos hregion, heq, hlog]
    rfl
  · rw [hK]
    exact (tableLow_mleOf op.logK _).symm
  · rw [hK]
    exact (tableLow_mleOf op.logK _).symm

/-- The last state opens the words at the end at the point, and the sum is what it shows there. -/
theorem At.last (h : op.WellFormed finalRamState) {rs : List C}
    (hs : At op finalRamState 0 (coordinates F rs).reverse s) :
    cacheOpenings op s rs = .some (op.normalizeOpeningPoint rs,
        op.valFinal finalRamState (coordinates F (op.normalizeOpeningPoint rs))) ∧
      op.summand finalRamState (coordinates F rs).reverse =
        op.addressSummand finalRamState (coordinates F (op.normalizeOpeningPoint rs)) := by
  obtain ⟨pre, dummy, post, hphases, hz, hn, -, -, hfinal, -⟩ := hs.bound
  have hphase2 := h.phase2
  have hbefore := hphases.before
  have hbetween := hphases.between
  have hbehind := hphases.behind
  have haddresses : op.phase3AddressRounds + op.phase2NumRounds = op.logK := by
    rw [OutputSumcheckParams.phase3AddressRounds]
    omega
  simp only [List.length_append] at hn
  have hpoint : (coordinates F (pre ++ post)).reverse = coordinates F (op.normalizeOpeningPoint rs) := by
    rw [← OutputSumcheckParams.boundAddress_coordinates, hz, hphases.boundAddress]
  have hrest : op.logK - (pre ++ post).length = 0 := by
    rw [List.length_append]
    omega
  rw [hrest, hpoint, tableLow_zero] at hfinal
  constructor
  · rw [cacheOpenings, hfinal]
    rfl
  · have hpost := @OutputSumcheckParams.cubeSum_post F C _ _ op finalRamState 0 (coordinates F post).reverse
      (coordinates F dummy).reverse (coordinates F pre).reverse
      (by rw [List.length_reverse, length_coordinates]; omega)
      (by rw [List.length_reverse, length_coordinates]; omega)
    rw [cubeSum_zero, cubeSum_zero, ← coordinates_reverse, ← coordinates_reverse, ← coordinates_reverse, hpoint,
      ← hz] at hpost
    exact hpost

end OutputSumcheckProver

/-! ## When the check is exact -/

/-- The prover and the verifier are those of the direct sumcheck. -/
structure OutputCheckExact (F : Type) {C : Type} [JoltField F] [Challenge C F] [DecidableEq F]
    (op : OutputSumcheckParams C) (finalRamState : List U64) (rs : List C) : Prop where
  input : cubeSum (op.summand finalRamState : List F → F) rs.length [] = 0
  run : ∃ ps, OutputSumcheckProver.run op finalRamState (0 : F) rs = .some (ps,
      op.summand finalRamState (coordinates F rs).reverse, op.normalizeOpeningPoint rs,
      op.valFinal finalRamState (coordinates F (op.normalizeOpeningPoint rs))) ∧
    FallibleProver.Follows (op.summand finalRamState) 3 [] rs ps
  output : op.expectedOutputClaim (op.valFinal finalRamState (coordinates F (op.normalizeOpeningPoint rs))) rs =
    .some (op.summand finalRamState (coordinates F rs).reverse)

theorem outputCheckExact_iff_rounds [DecidableEq F] {op : OutputSumcheckParams C} {finalRamState : List U64}
    (h : op.WellFormed finalRamState) (hthree : (3 : F) ≠ 0) (hpow : ∀ k, 0 < k → k < 64 → (2 : F) ^ k ≠ 1)
    {rs : List C} (hrs : rs.length = op.numRounds) :
    OutputCheckExact F op finalRamState rs ↔ op.programIo.memoryLayout.inputStart ≠ 0 ∧
      ∀ i < rs.length, op.RoundExact finalRamState (coordinates F (rs.take i)).reverse := by
  have hjust := @OutputSumcheckProver.exactJust F C _ _ op finalRamState _ h hthree hpow
  have hsum : cubeSum (op.summand finalRamState : List F → F) rs.length [] = 0 := by rw [hrs, h.sum_zero]
  constructor
  · rintro ⟨-, ⟨ps, hrun, hfollows⟩, -⟩
    have hinput : op.programIo.memoryLayout.inputStart ≠ 0 := fun hzero => by
      rw [OutputSumcheckProver.run, OutputSumcheckProver.start, hzero, remapped_zero] at hrun
      cases hrun
    refine ⟨hinput, ?_⟩
    obtain ⟨s, hs, hat⟩ := OutputSumcheckProver.start_at (F := F) h hinput
    rw [← hrs] at hat
    rw [OutputSumcheckProver.run, hs, Option.bind_eq_bind, Option.bind_some] at hrun
    obtain ⟨⟨ps', s', last⟩, hrounds, hrest⟩ := Option.bind_eq_some_iff.mp hrun
    obtain ⟨opening, -, hrest⟩ := Option.bind_eq_some_iff.mp hrest
    cases hrest
    rw [← hsum] at hrounds
    have hgood := hjust.good rs hat hrounds hfollows
    simp only [List.append_nil] at hgood
    exact hgood
  · rintro ⟨hinput, hall⟩
    obtain ⟨s, hs, hat⟩ := OutputSumcheckProver.start_at (F := F) h hinput
    rw [← hrs] at hat
    obtain ⟨ps, s', hrounds, hfollows, hlast⟩ := hjust.rounds rs hat fun i hi => by
      rw [List.append_nil]
      exact hall i hi
    rw [hsum, List.append_nil] at hrounds
    rw [List.append_nil] at hlast
    obtain ⟨hopenings, hvalue⟩ := hlast.last h
    refine ⟨hsum, ⟨ps, ?_, hfollows⟩, by
      rw [OutputSumcheckParams.expectedOutputClaim_eq h hinput hrs, ← hvalue]⟩
    rw [OutputSumcheckProver.run, hs, Option.bind_eq_bind, Option.bind_some, hrounds, Option.bind_eq_bind,
      Option.bind_some]
    simp only
    rw [hopenings]
    rfl

/-- The three instances share their address point, and the output check is exact at its slice of the
challenges of the batch. -/
structure RamStageExact (F : Type) {C : Type} [JoltField F] [Challenge C F] [DecidableEq F] (logK logT : Nat)
    (config : ReadWriteConfig) (programIo : JoltDevice) (rAddress : List C) (finalRamState : List U64) (r : List C) :
    Prop where
  points : ∃ checkSlice rafSlice outSlice,
    slice r ((RamReadWriteCheckingParams.new logK logT config).roundOffset r.length)
        (RamReadWriteCheckingParams.new logK logT config).numRounds = .some checkSlice ∧
      slice r ((RafEvaluationSumcheckParams.new logK logT config).roundOffset r.length)
        (RafEvaluationSumcheckParams.new logK logT config).numRounds = .some rafSlice ∧
      slice r ((OutputSumcheckParams.new logK programIo rAddress logT config).roundOffset r.length)
        (OutputSumcheckParams.new logK programIo rAddress logT config).numRounds = .some outSlice ∧
      (OutputSumcheckParams.new logK programIo rAddress logT config).normalizeOpeningPoint outSlice =
        ((RamReadWriteCheckingParams.new logK logT config).normalizeOpeningPoint checkSlice).take logK ∧
      (RafEvaluationSumcheckParams.new logK logT config).normalizeOpeningPoint rafSlice =
        ((RamReadWriteCheckingParams.new logK logT config).normalizeOpeningPoint checkSlice).take logK ∧
      ((OutputSumcheckParams.new logK programIo rAddress logT config).normalizeOpeningPoint outSlice).length = logK
  output : ∀ rs, slice r ((OutputSumcheckParams.new logK programIo rAddress logT config).roundOffset r.length)
      (OutputSumcheckParams.new logK programIo rAddress logT config).numRounds = .some rs →
    OutputCheckExact F (OutputSumcheckParams.new logK programIo rAddress logT config) finalRamState rs

theorem ramStageExact_iff_rounds [DecidableEq F] {logK logT : Nat} {config : ReadWriteConfig}
    (hvalid : config.validate logT logK = true) {programIo : JoltDevice} {rAddress : List C} {finalRamState : List U64}
    (h : (OutputSumcheckParams.new logK programIo rAddress logT config).WellFormed finalRamState)
    (hthree : (3 : F) ≠ 0) (hpow : ∀ k, 0 < k → k < 64 → (2 : F) ^ k ≠ 1) {r : List C} (hr : logK + logT ≤ r.length) :
    RamStageExact F logK logT config programIo rAddress finalRamState r ↔
      programIo.memoryLayout.inputStart ≠ 0 ∧ ∀ rs,
        slice r ((OutputSumcheckParams.new logK programIo rAddress logT config).roundOffset r.length)
          (OutputSumcheckParams.new logK programIo rAddress logT config).numRounds = .some rs →
        ∀ i < rs.length, (OutputSumcheckParams.new logK programIo rAddress logT config).RoundExact finalRamState
          (coordinates F (rs.take i)).reverse := by
  have hpoints := addressPoint_agrees hvalid programIo rAddress hr
  obtain ⟨-, -, outSlice, -, -, hslice, -⟩ := id hpoints
  have hlength : outSlice.length = (OutputSumcheckParams.new logK programIo rAddress logT config).numRounds := by
    rw [slice] at hslice
    split_ifs at hslice with hle
    cases hslice
    rw [List.length_take, List.length_drop]
    omega
  have hiff := outputCheckExact_iff_rounds h hthree hpow hlength
  constructor
  · intro hexact
    have hgood := hiff.mp (hexact.output outSlice hslice)
    exact ⟨hgood.1, fun rs hrs => by
      cases hslice.symm.trans hrs
      exact hgood.2⟩
  · rintro ⟨hinput, hall⟩
    exact ⟨hpoints, fun rs hrs => by
      cases hslice.symm.trans hrs
      exact hiff.mpr ⟨hinput, hall outSlice hslice⟩⟩

/-- Where no address is behind a cycle of the third phase, only a division by zero is in the way. -/
theorem OutputSumcheckParams.roundExact_iff_divides {op : OutputSumcheckParams C} {finalRamState : List U64}
    (hphases : op.phase1NumRounds = op.logT ∨ op.phase2NumRounds = op.logK) (hphase1 : op.phase1NumRounds ≤ op.logT)
    {z : List F} (hz : z.length < op.numRounds) :
    op.RoundExact finalRamState z ↔ op.IsInternalCycleGapRound z.length ∨ z.length < op.numZeroAddressVars ∨
      eqMle ((coordinates F op.rAddress).drop (op.logK - (op.boundAddress z).length - 1)) (1 :: op.boundAddress z) ≠ 0 := by
  rw [RoundExact]
  refine or_congr_right' fun hnot => or_congr_right (and_iff_left ?_)
  rw [numRounds] at hz
  rcases hphases with heq | heq
  · exact .inr (.inl (by rw [phase3CycleRounds, heq, Nat.sub_self]))
  · refine .inl (Nat.not_le.mp fun hle => hnot ⟨hle, ?_⟩)
    rw [phase3CycleRounds]
    omega

theorem two_pow_ne_one (k : Nat) (hpos : 0 < k) (hlt : k < 64) : (2 : Fr) ^ k ≠ 1 := by
  intro heq
  have hone : 1 < 2 ^ k := Nat.one_lt_two_pow hpos.ne'
  have hsize : 2 ^ k < 2 ^ 64 := Nat.pow_lt_pow_right (by decide) hlt
  refine natCast_ne_zero_of_lt (k := 2 ^ k - 1) (by omega) (by omega) ?_
  rw [Nat.cast_sub hone.le]
  push_cast
  rw [heq, sub_self]

/-- **The instances share their point, and the output check is exact just when** the I/O is not at
address zero and every round of an address that is not skipped divides by no zero and, behind the
cycles of the third phase, has coefficients that their scale leaves as they are. -/
theorem ram_stage_exact_iff {C : Type} [Challenge C Fr] {logK logT : Nat} {config : ReadWriteConfig}
    (hvalid : config.validate logT logK = true) {programIo : JoltDevice} {rAddress : List C} {finalRamState : List U64}
    (h : (OutputSumcheckParams.new logK programIo rAddress logT config).WellFormed finalRamState)
    {r : List C} (hr : logK + logT ≤ r.length) :
    RamStageExact Fr logK logT config programIo rAddress finalRamState r ↔
      programIo.memoryLayout.inputStart ≠ 0 ∧ ∀ rs,
        slice r ((OutputSumcheckParams.new logK programIo rAddress logT config).roundOffset r.length)
          (OutputSumcheckParams.new logK programIo rAddress logT config).numRounds = .some rs →
        ∀ i < rs.length, (OutputSumcheckParams.new logK programIo rAddress logT config).RoundExact finalRamState
          (coordinates Fr (rs.take i)).reverse :=
  ramStageExact_iff_rounds hvalid h (by decide) two_pow_ne_one hr

/-- The state that `gen_ram_memory_states` leaves is one to check. -/
theorem OutputSumcheckParams.wellFormed_of_states {C : Type} {logK logT : Nat} {config : ReadWriteConfig}
    (hvalid : config.validate logT logK = true) {ram : RAMPreprocessing} {programIo : JoltDevice}
    {finalMemory : MemoryData} {initial final : List U64}
    (hgen : genRamMemoryStates (2 ^ logK) ram programIo finalMemory = .some (initial, final))
    (htrusted : programIo.trustedAdvice.length ≤ programIo.memoryLayout.maxTrustedAdviceSize)
    (huntrusted : programIo.untrustedAdvice.length ≤ programIo.memoryLayout.maxUntrustedAdviceSize)
    (hinputs : programIo.inputs.length ≤ programIo.memoryLayout.maxInputSize)
    (houtputs : programIo.outputs.length ≤ programIo.memoryLayout.maxOutputSize)
    (hram : programIo.memoryLayout.wordIndex ramStartAddress < 2 ^ logK) (hcycles : logT < 64) {rAddress : List C}
    (haddress : rAddress.length = logK) :
    (OutputSumcheckParams.new logK programIo rAddress logT config).WellFormed final := by
  obtain ⟨hlength, hholds⟩ := genRamMemoryStates_final hgen htrusted huntrusted hinputs houtputs
  obtain ⟨hphase1, hphase2, -⟩ := of_decide_eq_true hvalid
  exact {
    phase1 := hphase1
    phase2 := hphase2
    cycles := hcycles
    address := haddress
    state := hlength
    ram := hram
    inputs := hinputs
    outputs := houtputs
    word := hholds.word
    zero := hholds.zero }

/-- Eight words, the first four of them I/O. -/
def eightWords : List U64 := [7, 9, 0, 1, 5, 5, 5, 5]

/-- A device whose I/O is four words. -/
def fourWordDevice : JoltDevice := JoltVerifier.smallDevice 8 rfl

/-- Four words of RAM after the run. -/
def fourFives : MemoryData := { MemoryData.empty with memory := fun _ => 5, numDoublewords := 4 }

/-- The output check of the device, one cycle variable and three of the address. -/
def smallOutput (config : ReadWriteConfig) : OutputSumcheckParams Fr := .new 3 fourWordDevice [1, 1, 1] 1 config

theorem fourWord_wellFormed {logT : Nat} (hcycles : logT < 64) {config : ReadWriteConfig}
    (hvalid : config.validate logT 3 = true) :
    (OutputSumcheckParams.new 3 fourWordDevice ([1, 1, 1] : List Fr) logT config).WellFormed eightWords := by
  have hgen : genRamMemoryStates (2 ^ 3) ⟨0x80000000, []⟩ fourWordDevice fourFives =
      .some ([7, 0, 0, 0, 0, 0, 0, 0], eightWords) := by decide
  exact OutputSumcheckParams.wellFormed_of_states hvalid hgen (by decide) (by decide) (by decide) (by decide) (by decide)
    hcycles rfl

theorem ram_stage_exact_gap :
    RamStageExact Fr 3 2 (C := Fr) ⟨1, 3, 1, 7⟩ fourWordDevice [1, 1, 1] eightWords [2, 3, 4, 5, 6] := by
  refine (ram_stage_exact_iff (by decide) (fourWord_wellFormed (by decide) (by decide)) (by decide)).mpr
    ⟨show 0x7fffffe0 ≠ 0 by decide, fun rs hrs => ?_⟩
  obtain rfl : [3, 4, 5, 6] = rs := Option.some.inj hrs
  unfold OutputSumcheckParams.RoundExact
  decide

/-- With a cycle of the third phase before the addresses, the last round is scaled by two. -/
theorem ram_stage_scaled : ReadWriteConfig.validate ⟨0, 0, 0, 0⟩ 1 3 = true ∧
    (smallOutput ⟨0, 0, 0, 0⟩).WellFormed eightWords ∧
      ¬ RamStageExact Fr 3 1 (C := Fr) ⟨0, 0, 0, 0⟩ fourWordDevice [1, 1, 1] eightWords [2, 3, 4, 5] := by
  have hwf : (smallOutput ⟨0, 0, 0, 0⟩).WellFormed eightWords := fourWord_wellFormed (by decide) (by decide)
  refine ⟨by decide, hwf, fun hexact => ?_⟩
  have hgood := ((ramStageExact_iff_rounds (by decide) hwf (by decide) two_pow_ne_one (by decide)).mp hexact).2
    [2, 3, 4, 5] rfl 3 (by decide)
  revert hgood
  unfold OutputSumcheckParams.RoundExact
  decide

end LightningJolt
