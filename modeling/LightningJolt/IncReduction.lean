/-
The reduction of the claims about the increments (`jolt-core/src/zkvm/claim_reductions/increments.rs`):
products over the low half of the cycle variables first, then tables with that half bound.
-/
import LightningJolt.DirectSumcheck
import LightningJolt.HammingReduction
import LightningJolt.RlcMatrix

namespace LightningJolt

open Finset

variable {F C : Type} [JoltField F] [Challenge C F]

/-! ## Parameters -/

/-- `IncClaimReductionSumcheckParams`. -/
structure IncClaimReductionParams (F C : Type) where
  gamma : F
  nCycleVars : Nat
  rCycleStage2 : List C
  rCycleStage4 : List C
  sCycleStage4 : List C
  sCycleStage5 : List C

/-- `split_at` of a point. -/
def splitPoint (point : List C) (mid : Nat) : Option (List C × List C) :=
  if mid ≤ point.length then .some (point.take mid, point.drop mid) else .none

namespace IncClaimReductionParams

omit [JoltField F] [Challenge C F] in
/-- `new`, from the points recorded. -/
def new (traceLen : Nat) (recorded : Recorded C) (gamma : F) : Option (IncClaimReductionParams F C) := do
  let rCycleStage2 ← recorded.point (.committed .RamInc .RamReadWriteChecking)
  let rCycleStage4 ← recorded.point (.committed .RamInc .RamValCheck)
  let sCycleStage4 ← recorded.point (.committed .RdInc .RegistersReadWriteChecking)
  let sCycleStage5 ← recorded.point (.committed .RdInc .RegistersValEvaluation)
  let nCycleVars ← log2 traceLen
  .some { gamma, nCycleVars, rCycleStage2, rCycleStage4, sCycleStage4, sCycleStage5 }

variable (p : IncClaimReductionParams F C)

/-- The claims: the power of gamma, the increment and the point of each. -/
def claims : List (F × CommittedPolynomial × List C) :=
  [(1, .RamInc, p.rCycleStage2), (p.gamma, .RamInc, p.rCycleStage4), (p.gamma ^ 2, .RdInc, p.sCycleStage4),
    (p.gamma ^ 3, .RdInc, p.sCycleStage5)]

/-- `input_claim`. -/
def inputClaim (claim : OpeningId → Option F) : Option F := do
  let v1 ← claim (.committed .RamInc .RamReadWriteChecking)
  let v2 ← claim (.committed .RamInc .RamValCheck)
  let w1 ← claim (.committed .RdInc .RegistersReadWriteChecking)
  let w2 ← claim (.committed .RdInc .RegistersValEvaluation)
  .some (v1 + p.gamma * v2 + p.gamma ^ 2 * w1 + p.gamma ^ 3 * w2)

/-- `expected_output_claim`, of the challenges and the claims at the last point. -/
def expectedOutputClaim (ramIncClaim rdIncClaim : F) (sumcheckChallenges : List C) : F :=
  let point := intoPoint sumcheckChallenges.reverse
  ramIncClaim * (EqPolynomial.mle point (intoPoint p.rCycleStage2) +
      p.gamma * EqPolynomial.mle point (intoPoint p.rCycleStage4)) +
    p.gamma ^ 2 * rdIncClaim * (EqPolynomial.mle point (intoPoint p.sCycleStage4) +
      p.gamma * EqPolynomial.mle point (intoPoint p.sCycleStage5))

end IncClaimReductionParams

/-! ## The prover -/

/-- `IncClaimReductionPhase1State`: the P and the Q buffer of each claim. -/
structure IncPhase1 (F C : Type) where
  buffers : List (List F × List F)
  sumcheckChallenges : List C

/-- `IncClaimReductionPhase2State`. -/
structure IncPhase2 (F : Type) where
  ramInc : List F
  rdInc : List F
  eqRam : List F
  eqRd : List F

/-- `IncClaimReductionPhase`. -/
inductive IncPhase (F C : Type) where
  | phase1 (state : IncPhase1 F C)
  | phase2 (state : IncPhase2 F)

/-- An increment over some cycles, weighted by a table. -/
def incSum (cycles : List CycleWitness) (poly : CommittedPolynomial) (eqEvals : List F) (index : Nat → Nat) :
    Option F := do
  let terms ← (List.range eqEvals.length).mapM fun i =>
    (cycles[index i]?).map fun c => eqEvals.getD i 0 * (c.inc poly : F)
  .some terms.sum

namespace IncPhase1

variable (p : IncClaimReductionParams F C) (cycles : List CycleWitness) (s : IncPhase1 F C)

/-- The P and the Q buffer of a claim. -/
def buffer (poly : CommittedPolynomial) (point : List C) : Option (List F × List F) := do
  let prefixNVars := p.nCycleVars / 2
  let suffixNVars := p.nCycleVars - prefixNVars
  let (hi, lo) ← splitPoint point suffixNVars
  let Q ← (List.range (2 ^ prefixNVars)).mapM fun xLo =>
    incSum cycles poly (EqPolynomial.evals hi) fun xHi => xLo + (xHi <<< prefixNVars)
  .some (EqPolynomial.evals lo, Q)

/-- `initialize`. -/
def start : Option (IncPhase1 F C) := do
  let buffers ← p.claims.mapM fun (_, poly, point) => buffer p cycles poly point
  .some ⟨buffers, []⟩

/-- `compute_message`. -/
def computeMessage [DecidableEq F] (previousClaim : F) : Option (UniPoly F) := do
  let (P, _) ← s.buffers[0]?
  productMessage (List.zipWith (fun c b => (c.1, b)) p.claims s.buffers) (P.length / 2) previousClaim

/-- `should_transition_to_phase2`. -/
def shouldTransitionToPhase2 : Option Bool := do
  let (P, _) ← s.buffers[0]?
  .some (decide ((← log2 P.length) = 1))

/-- `bind`, of a state that stays in the phase. -/
def bind (r : C) : IncPhase1 F C where
  buffers := s.buffers.map fun (P, Q) =>
    (DensePolynomial.bind .lowToHigh P (Challenge.into r), DensePolynomial.bind .lowToHigh Q (Challenge.into r))
  sumcheckChallenges := s.sumcheckChallenges ++ [r]

end IncPhase1

namespace IncPhase2

variable (p : IncClaimReductionParams F C) (cycles : List CycleWitness)

/-- One of the combined equality tables. -/
def combinedEq (rPrefix : List C) (a b : List C) : Option (List F) := do
  let mid := p.nCycleVars - p.nCycleVars / 2
  let (aHi, aLo) ← splitPoint a mid
  let (bHi, bLo) ← splitPoint b mid
  let eqA := EqPolynomial.evalsSerial aHi (.some (EqPolynomial.mle (intoPoint rPrefix) (intoPoint aLo)))
  let eqB := EqPolynomial.evalsSerial bHi (.some (EqPolynomial.mle (intoPoint rPrefix) (intoPoint bLo)))
  .some (List.zipWith (fun ea eb => ea + p.gamma * eb) eqA eqB)

/-- An increment with the prefix variables bound. -/
def materialize (poly : CommittedPolynomial) (rPrefix : List C) (suffixLen : Nat) : Option (List F) := do
  let eqPrefixEvals : List F := EqPolynomial.evals rPrefix
  let shift ← log2 eqPrefixEvals.length
  (List.range suffixLen).mapM fun xHi =>
    incSum cycles poly eqPrefixEvals fun xLo => xLo + (xHi <<< shift)

/-- `gen`. -/
def gen (sumcheckChallenges : List C) : Option (IncPhase2 F) := do
  let nRemainingRounds := p.nCycleVars - sumcheckChallenges.length
  let rPrefix := sumcheckChallenges.reverse
  .some {
    eqRam := ← combinedEq p rPrefix p.rCycleStage2 p.rCycleStage4
    eqRd := ← combinedEq p rPrefix p.sCycleStage4 p.sCycleStage5
    ramInc := ← materialize cycles .RamInc rPrefix (2 ^ nRemainingRounds)
    rdInc := ← materialize cycles .RdInc rPrefix (2 ^ nRemainingRounds) }

variable (s : IncPhase2 F)

/-- `compute_message`. -/
def computeMessage [DecidableEq F] (previousClaim : F) : Option (UniPoly F) :=
  productMessage [(1, s.ramInc, s.eqRam), (p.gamma ^ 2, s.rdInc, s.eqRd)] (s.ramInc.length / 2) previousClaim

/-- `bind`. -/
def bind (r : C) : IncPhase2 F where
  ramInc := DensePolynomial.bind .lowToHigh s.ramInc (Challenge.into r)
  rdInc := DensePolynomial.bind .lowToHigh s.rdInc (Challenge.into r)
  eqRam := DensePolynomial.bind .lowToHigh s.eqRam (Challenge.into r)
  eqRd := DensePolynomial.bind .lowToHigh s.eqRd (Challenge.into r)

end IncPhase2

namespace IncPhase

variable (p : IncClaimReductionParams F C) (cycles : List CycleWitness)

/-- `compute_message`. -/
def computeMessage [DecidableEq F] : IncPhase F C → F → Option (UniPoly F)
  | .phase1 s, previousClaim => s.computeMessage p previousClaim
  | .phase2 s, previousClaim => s.computeMessage p previousClaim

/-- `ingest_challenge`. -/
def ingestChallenge : IncPhase F C → C → Option (IncPhase F C)
  | .phase1 s, r => do
    if ← s.shouldTransitionToPhase2 then .some (.phase2 (← IncPhase2.gen p cycles (s.sumcheckChallenges ++ [r])))
    else .some (.phase1 (s.bind r))
  | .phase2 s, r => .some (.phase2 (s.bind r))

/-- The prover of the increments. -/
def prover [DecidableEq F] : FallibleProver (IncPhase F C) F C where
  computeMessage := computeMessage p
  ingestChallenge := ingestChallenge p cycles

/-- `cache_openings`: the claims of the memory's and the registers' increments, a panic in the
first phase. -/
def cacheOpenings : IncPhase F C → Option (F × F)
  | .phase1 _ => .none
  | .phase2 s => do
    .some (← DensePolynomial.finalSumcheckClaim s.ramInc, ← DensePolynomial.finalSumcheckClaim s.rdInc)

/-- The whole sumcheck: the messages, the last claim and the claims cached. -/
def run [DecidableEq F] (claim : F) (rs : List C) : Option (List (UniPoly F) × F × F × F) := do
  let (ps, s, last) ← (prover p cycles).rounds (.phase1 (← IncPhase1.start p cycles)) claim rs
  let (ramInc, rdInc) ← s.cacheOpenings
  .some (ps, last, ramInc, rdInc)

end IncPhase

/-! ## The direct sumcheck -/

/-- An increment in a cycle. -/
def incAt (cycles : List CycleWitness) (poly : CommittedPolynomial) (j : Nat) : F :=
  (((cycles.getD j .noOp).inc poly : Int) : F)

/-- The multilinear extension of an increment. -/
def incMle (n : Nat) (cycles : List CycleWitness) (poly : CommittedPolynomial) : List F → F :=
  mleOf n (incAt cycles poly)

namespace IncClaimReductionParams

variable (p : IncClaimReductionParams F C) (cycles : List CycleWitness)

/-- What the direct sumcheck sums. -/
def summand (x : List F) : F :=
  (p.claims.map fun c => c.1 * (eqMle (intoPoint c.2.2) x * incMle p.nCycleVars cycles c.2.1 x)).sum

/-- The claims of the earlier stages are of the increments. -/
structure TrueClaims (claim : OpeningId → Option F) : Prop where
  ramStage2 : claim (.committed .RamInc .RamReadWriteChecking) =
    .some (incMle p.nCycleVars cycles .RamInc (intoPoint p.rCycleStage2))
  ramStage4 : claim (.committed .RamInc .RamValCheck) =
    .some (incMle p.nCycleVars cycles .RamInc (intoPoint p.rCycleStage4))
  rdStage4 : claim (.committed .RdInc .RegistersReadWriteChecking) =
    .some (incMle p.nCycleVars cycles .RdInc (intoPoint p.sCycleStage4))
  rdStage5 : claim (.committed .RdInc .RegistersValEvaluation) =
    .some (incMle p.nCycleVars cycles .RdInc (intoPoint p.sCycleStage5))

/-- The points of the claims have a coordinate for each variable of the trace. -/
structure WellFormed : Prop where
  trace : cycles.length = 2 ^ p.nCycleVars
  points : ∀ c ∈ p.claims, c.2.2.length = p.nCycleVars

end IncClaimReductionParams

theorem sum_map_sum {ι α : Type} (s : Finset ι) (l : List α) (f : ι → α → F) :
    ∑ i ∈ s, (l.map (f i)).sum = (l.map fun a => ∑ i ∈ s, f i a).sum := by
  induction l with
  | nil => simp
  | cons a l ih => simp only [List.map_cons, List.sum_cons, sum_add_distrib, ih]

theorem EqPolynomial.mle_eq (x y : List F) : EqPolynomial.mle x y = eqMle x y := by
  rw [EqPolynomial.mle, eqMle]
  congr 2
  funext a b
  rw [eqFactor]
  ring

theorem EqPolynomial.evalsSerial_some (r : List C) (k : F) :
    EqPolynomial.evalsSerial r (.some k) = (eqTable (intoPoint r)).map (k * ·) := by
  rw [EqPolynomial.evalsSerial, foldl_expandLow, Option.getD_some]
  simp [tensor, intoPoint]

section Tables

variable {p : IncClaimReductionParams F C} {cycles : List CycleWitness}

theorem eqTable_getD (w : List F) {i : Nat} (h : i < 2 ^ w.length) :
    (eqTable w).getD i 0 = eqMle w (bitsPoint w.length i) := eqAt_eq_eqMle w h

/-- The table of a point is that of the equality polynomial. -/
theorem evals_tableLow (point : List C) : (EqPolynomial.evals point : List F) =
    tableLow (fun x => eqMle x (intoPoint point)) point.length [] := by
  rw [EqPolynomial.evals_eq, ← intoPoint, ← tableOf_getD (eqTable _) 0, length_eqTable, length_intoPoint, tableLow]
  refine tableOf_congr fun i hi => ?_
  rw [eqTable_getD _ (by rwa [length_intoPoint]), length_intoPoint, List.append_nil, eqMle_comm]

theorem incSum_eq {eqEvals : List F} {index : Nat → Nat} (poly : CommittedPolynomial)
    (h : ∀ i < eqEvals.length, index i < cycles.length) :
    incSum cycles poly eqEvals index =
      .some (∑ i ∈ range eqEvals.length, eqEvals.getD i 0 * incAt cycles poly (index i)) := by
  have hterms : (List.range eqEvals.length).mapM (fun i =>
      (cycles[index i]?).map fun c => eqEvals.getD i 0 * (c.inc poly : F)) =
        .some (tableOf eqEvals.length fun i => eqEvals.getD i 0 * incAt cycles poly (index i)) := by
    refine mapM_range fun i hi => ?_
    rw [List.getElem?_eq_getElem (h i hi), Option.map_some, incAt, List.getD_eq_getElem _ _ (h i hi)]
  rw [incSum, hterms]
  rfl

/-- The function whose table is the P buffer of a claim. -/
def prefixFactor (n : Nat) (point : List C) (y : List F) : F :=
  eqMle y (intoPoint (point.drop (n - n / 2)))

/-- The function whose table is the Q buffer of a claim. -/
def suffixFactor (n : Nat) (cycles : List CycleWitness) (poly : CommittedPolynomial) (point : List C)
    (y : List F) : F :=
  ∑ i ∈ range (2 ^ (n - n / 2)), eqMle (intoPoint (point.take (n - n / 2))) (bitsPoint (n - n / 2) i) *
    incMle n cycles poly (bitsPoint (n - n / 2) i ++ y)

/-- The weighted products of the first phase. -/
def incPrefixProducts (p : IncClaimReductionParams F C) (cycles : List CycleWitness) : List (WeightedProduct F) :=
  p.claims.map fun c =>
    (c.1, prefixFactor p.nCycleVars c.2.2, suffixFactor p.nCycleVars cycles c.2.1 c.2.2)

/-- A combined equality polynomial. -/
def eqCombined (gamma : F) (a b : List C) (x : List F) : F :=
  eqMle x (intoPoint a) + gamma * eqMle x (intoPoint b)

/-- The weighted products of the second phase. -/
def incSuffixProducts (p : IncClaimReductionParams F C) (cycles : List CycleWitness) : List (WeightedProduct F) :=
  [(1, incMle p.nCycleVars cycles .RamInc, eqCombined p.gamma p.rCycleStage2 p.rCycleStage4),
    (p.gamma ^ 2, incMle p.nCycleVars cycles .RdInc, eqCombined p.gamma p.sCycleStage4 p.sCycleStage5)]

theorem affine_incPrefixProducts : ∀ t ∈ incPrefixProducts p cycles, Affine t.2.1 ∧ Affine t.2.2 := by
  intro t ht
  obtain ⟨c, -, rfl⟩ := List.mem_map.mp ht
  have hsuffix : Affine (suffixFactor (F := F) p.nCycleVars cycles c.2.1 c.2.2) :=
    Affine.sum fun i _ => ((affine_mleOf _ _).after _).const_mul _
  exact ⟨affine_eqMle _, hsuffix⟩

theorem affine_eqCombined (gamma : F) (a b : List C) : Affine (eqCombined gamma a b) :=
  (affine_eqMle _).add ((affine_eqMle _).const_mul gamma)

theorem affine_incSuffixProducts : ∀ t ∈ incSuffixProducts p cycles, Affine t.2.1 ∧ Affine t.2.2 := by
  simp only [incSuffixProducts, List.mem_cons, List.not_mem_nil, or_false, forall_eq_or_imp, forall_eq]
  exact ⟨⟨affine_mleOf _ _, affine_eqCombined _ _ _⟩, affine_mleOf _ _, affine_eqCombined _ _ _⟩

theorem summand_eq_suffix (x : List F) : p.summand cycles x = productsAt (incSuffixProducts p cycles) x := by
  simp only [IncClaimReductionParams.summand, IncClaimReductionParams.claims, productsAt, incSuffixProducts, eqCombined,
    List.map_cons, List.map_nil, List.sum_cons, List.sum_nil, eqMle_comm _ x]
  ring

/-- The suffix variables summed over, the products of the first phase remain. -/
theorem sum_summand (h : p.WellFormed cycles) {y : List F} (hy : y.length = p.nCycleVars / 2) :
    ∑ i ∈ range (2 ^ (p.nCycleVars - p.nCycleVars / 2)),
        p.summand cycles (bitsPoint (p.nCycleVars - p.nCycleVars / 2) i ++ y) =
      productsAt (incPrefixProducts p cycles) y := by
  simp only [IncClaimReductionParams.summand]
  rw [sum_map_sum, productsAt, incPrefixProducts, List.map_map]
  congr 1
  refine List.map_congr_left fun c hc => ?_
  have hlen := h.points c hc
  simp only [Function.comp_apply, prefixFactor, suffixFactor]
  rw [mul_sum, mul_sum]
  refine sum_congr rfl fun i _ => ?_
  have hsplit : (intoPoint c.2.2 : List F) = intoPoint (c.2.2.take (p.nCycleVars - p.nCycleVars / 2)) ++
      intoPoint (c.2.2.drop (p.nCycleVars - p.nCycleVars / 2)) := by
    rw [intoPoint, intoPoint, intoPoint, ← List.map_append, List.take_append_drop]
  rw [hsplit, eqMle_append (by rw [length_intoPoint, length_bitsPoint, List.length_take, hlen]; omega),
    eqMle_comm y]
  ring

end Tables

/-! ## The invariant -/

section Invariant

variable (p : IncClaimReductionParams F C) (cycles : List CycleWitness)

/-- In the first phase, with the challenges of `z` bound and `n` variables left. -/
structure IncPhase1.At (n : Nat) (z : List F) (s : IncPhase1 F C) : Prop where
  challenges : z = (s.sumcheckChallenges.map Challenge.into).reverse
  left : z.length < p.nCycleVars / 2
  rounds : n + z.length = p.nCycleVars
  buffers : s.buffers = p.claims.map fun c =>
    (tableLow (prefixFactor p.nCycleVars c.2.2) (p.nCycleVars / 2 - z.length) z,
      tableLow (suffixFactor p.nCycleVars cycles c.2.1 c.2.2) (p.nCycleVars / 2 - z.length) z)

/-- In the second. -/
structure IncPhase2.At (n : Nat) (z : List F) (s : IncPhase2 F) : Prop where
  exhausted : p.nCycleVars / 2 ≤ z.length
  rounds : n + z.length = p.nCycleVars
  ramInc : s.ramInc = tableLow (incMle p.nCycleVars cycles .RamInc) n z
  rdInc : s.rdInc = tableLow (incMle p.nCycleVars cycles .RdInc) n z
  eqRam : s.eqRam = tableLow (eqCombined p.gamma p.rCycleStage2 p.rCycleStage4) n z
  eqRd : s.eqRd = tableLow (eqCombined p.gamma p.sCycleStage4 p.sCycleStage5) n z

/-- The phase is the second exactly when the prefix variables are exhausted. -/
def IncPhase.At (n : Nat) (z : List F) : IncPhase F C → Prop
  | .phase1 s => s.At p cycles n z
  | .phase2 s => s.At p cycles n z

end Invariant

section Steps

variable {p : IncClaimReductionParams F C} {cycles : List CycleWitness} {n : Nat} {z : List F}

omit [JoltField F] [Challenge C F] in
theorem splitPoint_eq {point : List C} {mid : Nat} (h : mid ≤ point.length) :
    splitPoint point mid = .some (point.take mid, point.drop mid) := if_pos h

theorem shiftLeft_add_lt {m n i j : Nat} (hi : i < 2 ^ m) (hj : j < 2 ^ n) : j + (i <<< n) < 2 ^ (m + n) := by
  rw [Nat.shiftLeft_eq, pow_add]
  calc j + i * 2 ^ n < 2 ^ n + i * 2 ^ n := by omega
    _ = (i + 1) * 2 ^ n := by ring
    _ ≤ 2 ^ m * 2 ^ n := Nat.mul_le_mul_right _ hi

/-- The extension of an increment at an index in two parts. -/
theorem incMle_append {m k i j : Nat} (poly : CommittedPolynomial) (hi : i < 2 ^ m) (hj : j < 2 ^ k) :
    (incMle (m + k) cycles poly (bitsPoint m i ++ bitsPoint k j) : F) = incAt cycles poly (j + (i <<< k)) := by
  rw [← bitsPoint_append m k hj, Nat.shiftLeft_eq, Nat.add_comm j, incMle, mleOf_bitsPoint]
  rw [Nat.add_comm, ← Nat.shiftLeft_eq]
  exact shiftLeft_add_lt hi hj

theorem IncPhase1.buffer_eq (h : p.WellFormed cycles) (poly : CommittedPolynomial) {point : List C}
    (hlen : point.length = p.nCycleVars) : buffer p cycles poly point = .some
      (tableLow (prefixFactor p.nCycleVars point) (p.nCycleVars / 2) [],
        tableLow (suffixFactor p.nCycleVars cycles poly point) (p.nCycleVars / 2) []) := by
  have hhalves : p.nCycleVars - p.nCycleVars / 2 + p.nCycleVars / 2 = p.nCycleVars := by omega
  have hhi : (point.take (p.nCycleVars - p.nCycleVars / 2)).length = p.nCycleVars - p.nCycleVars / 2 := by
    rw [List.length_take]; omega
  have hlo : (point.drop (p.nCycleVars - p.nCycleVars / 2)).length = p.nCycleVars / 2 := by
    rw [List.length_drop]; omega
  have hevals : (EqPolynomial.evals (point.drop (p.nCycleVars - p.nCycleVars / 2)) : List F) =
      tableLow (prefixFactor p.nCycleVars point) (p.nCycleVars / 2) [] := by
    rw [evals_tableLow, hlo]
    rfl
  have hQ : (List.range (2 ^ (p.nCycleVars / 2))).mapM (fun xLo =>
      incSum (F := F) cycles poly (EqPolynomial.evals (point.take (p.nCycleVars - p.nCycleVars / 2)))
        fun xHi => xLo + (xHi <<< (p.nCycleVars / 2))) =
      .some (tableLow (suffixFactor p.nCycleVars cycles poly point) (p.nCycleVars / 2) []) := by
    refine mapM_range fun j hj => ?_
    have hlength : (EqPolynomial.evals (point.take (p.nCycleVars - p.nCycleVars / 2)) : List F).length =
        2 ^ (p.nCycleVars - p.nCycleVars / 2) := by
      rw [EqPolynomial.evals_eq, length_eqTable, List.length_map, hhi]
    rw [incSum_eq, hlength, List.append_nil, suffixFactor]
    · refine congrArg _ (sum_congr rfl fun i hi => ?_)
      have hi := mem_range.mp hi
      rw [EqPolynomial.evals_eq, ← intoPoint, eqTable_getD _ (by rwa [length_intoPoint, hhi]), length_intoPoint, hhi,
        ← incMle_append poly hi hj, hhalves]
    · intro i hi
      have hlt := shiftLeft_add_lt (hlength ▸ hi) hj
      rwa [hhalves, ← h.trace] at hlt
  rw [buffer]
  simp only
  rw [splitPoint_eq (by omega)]
  simp only [Option.bind_eq_bind, Option.bind_some, hevals, hQ]

theorem IncPhase1.start_at (h : p.WellFormed cycles) (hvars : 2 ≤ p.nCycleVars) :
    ∃ s, start p cycles = .some s ∧ s.At p cycles p.nCycleVars [] := by
  refine ⟨⟨_, []⟩, ?_, ⟨rfl, ?_, by simp, rfl⟩⟩
  · rw [start, mapM_of_some fun c hc => buffer_eq h c.2.1 (h.points c hc)]
    rfl
  · simp only [List.length_nil]
    omega

/-- The direct sumcheck in the first phase: the suffix variables summed over beforehand. -/
theorem cubeSum_summand (h : p.WellFormed cycles) {k : Nat} (hk : k + z.length = p.nCycleVars / 2) :
    cubeSum (p.summand cycles) (p.nCycleVars - p.nCycleVars / 2 + k) z =
      cubeSum (productsAt (incPrefixProducts p cycles)) k z := by
  rw [cubeSum_add]
  exact cubeSum_congr fun y hy => sum_summand h (hy.trans hk)

namespace IncPhase1

variable {s : IncPhase1 F C}

theorem At.tables (hs : s.At p cycles n z) : List.zipWith (fun c b => (c.1, b)) p.claims s.buffers =
    productTables (incPrefixProducts p cycles) (p.nCycleVars / 2 - z.length) z := by
  rw [hs.buffers, List.zipWith_map_right, List.zipWith_self, productTables, incPrefixProducts, List.map_map]
  rfl

/-- The first P buffer, of which the length is read. -/
theorem At.head (hs : s.At p cycles n z) : ∃ Q, s.buffers[0]? = .some
    (tableLow (prefixFactor p.nCycleVars p.rCycleStage2) (p.nCycleVars / 2 - z.length) z, Q) := by
  rw [hs.buffers]
  exact ⟨_, rfl⟩

theorem At.message [DecidableEq F] (h : p.WellFormed cycles) (hs : s.At p cycles (n + 1) z) :
    ∃ q, s.computeMessage p (cubeSum (p.summand cycles) (n + 1) z) = .some q ∧
      q.Is 2 fun x => cubeSum (p.summand cycles) n (x :: z) := by
  have hleft := hs.left
  have hrounds := hs.rounds
  obtain ⟨m, hm⟩ : ∃ m, p.nCycleVars / 2 - z.length = m + 1 := ⟨p.nCycleVars / 2 - z.length - 1, by omega⟩
  have hn : n = p.nCycleVars - p.nCycleVars / 2 + m := by omega
  obtain ⟨Q, hhead⟩ := hs.head
  obtain ⟨q, hq, his⟩ := productMessage_tables (@affine_incPrefixProducts F C _ _ p cycles) m z
  refine ⟨q, ?_, his.length, fun x => ?_⟩
  · rw [computeMessage, hhead, Option.bind_eq_bind, Option.bind_some, hs.tables, hm, hn, Nat.add_assoc,
      cubeSum_summand h (by omega)]
    simp only [half_tableLow]
    exact hq
  · rw [his.value, hn, cubeSum_summand h (by rw [List.length_cons]; omega)]

theorem At.shouldTransition (hs : s.At p cycles n z) :
    s.shouldTransitionToPhase2 = .some (decide (p.nCycleVars / 2 - z.length = 1)) := by
  obtain ⟨Q, hhead⟩ := hs.head
  rw [shouldTransitionToPhase2, hhead, Option.bind_eq_bind, Option.bind_some]
  simp only [length_tableLow, EqPolynomial.log2_pow, Option.bind_eq_bind, Option.bind_some]

/-- A challenge of which more prefix variables are left. -/
theorem At.bind (hs : s.At p cycles (n + 1) z) (hleft : p.nCycleVars / 2 - z.length ≠ 1) (r : C) :
    (s.bind r).At p cycles n (Challenge.into r :: z) := by
  have hlt := hs.left
  have hrounds := hs.rounds
  obtain ⟨m, hm⟩ : ∃ m, p.nCycleVars / 2 - z.length = m + 1 := ⟨p.nCycleVars / 2 - z.length - 1, by omega⟩
  refine ⟨?_, by rw [List.length_cons]; omega, by rw [List.length_cons]; omega, ?_⟩
  · rw [IncPhase1.bind, List.map_append, List.reverse_append, ← hs.challenges]
    rfl
  · rw [IncPhase1.bind, hs.buffers, List.map_map, List.length_cons, ← Nat.sub_sub, hm, Nat.add_sub_cancel]
    refine List.map_congr_left fun c hc => ?_
    obtain ⟨hP, hQ⟩ := @affine_incPrefixProducts F C _ _ p cycles _ (List.mem_map_of_mem hc)
    simp only [Function.comp_apply, bind_tableLow hP, bind_tableLow hQ]

end IncPhase1

/-! ## The second phase -/

namespace IncPhase2

variable {cs : List C}

/-- An equality table over the suffix, scaled by the prefix bound. -/
theorem scaledTable_eq {point : List C} (hlen : point.length = p.nCycleVars) (hcs : cs.length = p.nCycleVars / 2) :
    EqPolynomial.evalsSerial (point.take (p.nCycleVars - p.nCycleVars / 2))
      (.some (EqPolynomial.mle (intoPoint cs.reverse) (intoPoint (point.drop (p.nCycleVars - p.nCycleVars / 2))))) =
    tableLow (fun x => eqMle x (intoPoint point)) (p.nCycleVars - p.nCycleVars / 2) (intoPoint cs.reverse : List F) := by
  have hhi : (point.take (p.nCycleVars - p.nCycleVars / 2)).length = p.nCycleVars - p.nCycleVars / 2 := by
    rw [List.length_take]; omega
  have hsplit : (intoPoint point : List F) = intoPoint (point.take (p.nCycleVars - p.nCycleVars / 2)) ++
      intoPoint (point.drop (p.nCycleVars - p.nCycleVars / 2)) := by
    rw [intoPoint, intoPoint, intoPoint, ← List.map_append, List.take_append_drop]
  rw [EqPolynomial.evalsSerial_some, EqPolynomial.mle_eq, ← tableOf_getD (eqTable _) 0, map_tableOf, length_eqTable,
    length_intoPoint, hhi, tableLow]
  refine tableOf_congr fun i hi => ?_
  rw [eqTable_getD _ (by rwa [length_intoPoint, hhi]), length_intoPoint, hhi, hsplit,
    eqMle_append (by rw [length_intoPoint, length_bitsPoint, hhi]), eqMle_comm (bitsPoint _ _), mul_comm]

theorem combinedEq_eq {a b : List C} (ha : a.length = p.nCycleVars) (hb : b.length = p.nCycleVars)
    (hcs : cs.length = p.nCycleVars / 2) : combinedEq p cs.reverse a b =
      .some (tableLow (eqCombined p.gamma a b) (p.nCycleVars - p.nCycleVars / 2) (intoPoint cs.reverse)) := by
  rw [combinedEq]
  simp only
  rw [splitPoint_eq (by omega), splitPoint_eq (by omega)]
  simp only [Option.bind_eq_bind, Option.bind_some, scaledTable_eq ha hcs, scaledTable_eq hb hcs]
  rw [tableLow, tableLow, zipWith_tableOf]
  rfl

theorem materialize_eq (h : p.WellFormed cycles) (poly : CommittedPolynomial) (hcs : cs.length = p.nCycleVars / 2) :
    materialize (F := F) cycles poly cs.reverse (2 ^ (p.nCycleVars - p.nCycleVars / 2)) =
      .some (tableLow (incMle p.nCycleVars cycles poly) (p.nCycleVars - p.nCycleVars / 2) (intoPoint cs.reverse)) := by
  have hhalves : p.nCycleVars - p.nCycleVars / 2 + p.nCycleVars / 2 = p.nCycleVars := by omega
  have hz : (intoPoint cs.reverse : List F).length = p.nCycleVars / 2 := by
    rw [length_intoPoint, List.length_reverse, hcs]
  have hlength : (EqPolynomial.evals cs.reverse : List F).length = 2 ^ (p.nCycleVars / 2) := by
    rw [EqPolynomial.evals_eq, length_eqTable, ← intoPoint, hz]
  rw [materialize, hlength, EqPolynomial.log2_pow, Option.bind_eq_bind, Option.bind_some]
  refine mapM_range fun i hi => ?_
  rw [incSum_eq, hlength]
  · have hpoint := (affine_mleOf p.nCycleVars (incAt (F := F) cycles poly)).sum_eqMle
      (bitsPoint (p.nCycleVars - p.nCycleVars / 2) i) (intoPoint cs.reverse)
    rw [hz, ← incMle] at hpoint
    rw [← hpoint]
    refine congrArg _ (sum_congr rfl fun j hj => ?_)
    have hj := mem_range.mp hj
    rw [EqPolynomial.evals_eq, ← intoPoint, eqTable_getD _ (by rwa [hz]), hz, ← incMle_append poly hi hj, hhalves]
  · intro j hj
    have hlt := shiftLeft_add_lt hi (hlength ▸ hj)
    rwa [hhalves, ← h.trace] at hlt

theorem gen_at (h : p.WellFormed cycles) (hcs : cs.length = p.nCycleVars / 2) :
    ∃ s, gen p cycles cs = .some s ∧
      s.At p cycles (p.nCycleVars - p.nCycleVars / 2) (intoPoint cs.reverse : List F) := by
  have hclaims : ∀ point ∈ [p.rCycleStage2, p.rCycleStage4, p.sCycleStage4, p.sCycleStage5],
      point.length = p.nCycleVars := by
    intro point hpoint
    have hmem : ∃ c ∈ p.claims, c.2.2 = point := by
      simpa [IncClaimReductionParams.claims, eq_comm] using hpoint
    obtain ⟨c, hc, rfl⟩ := hmem
    exact h.points c hc
  simp only [List.mem_cons, List.not_mem_nil, or_false, forall_eq_or_imp, forall_eq] at hclaims
  obtain ⟨h2, h4, hs4, hs5⟩ := hclaims
  refine ⟨⟨_, _, _, _⟩, ?_, ⟨?_, ?_, rfl, rfl, rfl, rfl⟩⟩
  · rw [gen]
    simp only [hcs, combinedEq_eq h2 h4 hcs, combinedEq_eq hs4 hs5 hcs, materialize_eq h _ hcs, Option.bind_eq_bind,
      Option.bind_some]
    rfl
  · rw [length_intoPoint, List.length_reverse, hcs]
  · rw [length_intoPoint, List.length_reverse, hcs]
    omega

variable {s : IncPhase2 F}

theorem At.message [DecidableEq F] (hs : s.At p cycles (n + 1) z) :
    ∃ q, s.computeMessage p (cubeSum (p.summand cycles) (n + 1) z) = .some q ∧
      q.Is 2 fun x => cubeSum (p.summand cycles) n (x :: z) := by
  have hsummand : p.summand cycles = productsAt (incSuffixProducts p cycles) := funext summand_eq_suffix
  obtain ⟨q, hq, his⟩ := productMessage_tables (@affine_incSuffixProducts F C _ _ p cycles) n z
  rw [hsummand]
  refine ⟨q, ?_, his⟩
  rw [computeMessage, hs.ramInc, hs.rdInc, hs.eqRam, hs.eqRd, half_tableLow]
  exact hq

theorem At.bind (hs : s.At p cycles (n + 1) z) (r : C) : (s.bind r).At p cycles n (Challenge.into r :: z) := by
  have hexhausted := hs.exhausted
  have hrounds := hs.rounds
  refine ⟨by rw [List.length_cons]; omega, by rw [List.length_cons]; omega, ?_, ?_, ?_, ?_⟩
  · rw [IncPhase2.bind, hs.ramInc, incMle, bind_tableLow (affine_mleOf _ _)]
  · rw [IncPhase2.bind, hs.rdInc, incMle, bind_tableLow (affine_mleOf _ _)]
  · rw [IncPhase2.bind, hs.eqRam, bind_tableLow (affine_eqCombined _ _ _)]
  · rw [IncPhase2.bind, hs.eqRd, bind_tableLow (affine_eqCombined _ _ _)]

end IncPhase2

/-! ## The run -/

namespace IncPhase

theorem exact [DecidableEq F] (h : p.WellFormed cycles) :
    (prover p cycles).Exact (p.summand cycles) 2 (At p cycles) where
  message {n z s} hs := by
    cases s with
    | phase1 s => exact IncPhase1.At.message h hs
    | phase2 s => exact IncPhase2.At.message hs
  challenge {n z s} hs r := by
    cases s with
    | phase2 s => exact ⟨_, rfl, IncPhase2.At.bind hs r⟩
    | phase1 s =>
      have hs : s.At p cycles (n + 1) z := hs
      have hleft := hs.left
      have hrounds := hs.rounds
      by_cases hone : p.nCycleVars / 2 - z.length = 1
      · have hlength : s.sumcheckChallenges.length = z.length := by
          rw [hs.challenges, List.length_reverse, List.length_map]
        obtain ⟨s2, hgen, hat⟩ := @IncPhase2.gen_at F C _ _ p cycles (s.sumcheckChallenges ++ [r]) h
          (by rw [List.length_append, List.length_singleton, hlength]; omega)
        have hpoint : (intoPoint (s.sumcheckChallenges ++ [r]).reverse : List F) = Challenge.into r :: z := by
          rw [hs.challenges, intoPoint, List.map_reverse, List.map_append, List.reverse_append]
          rfl
        rw [hpoint, show p.nCycleVars - p.nCycleVars / 2 = n by omega] at hat
        refine ⟨.phase2 s2, ?_, hat⟩
        show ingestChallenge p cycles (.phase1 s) r = _
        rw [ingestChallenge, hs.shouldTransition, hone]
        simp [hgen]
      · refine ⟨.phase1 (s.bind r), ?_, hs.bind hone r⟩
        show ingestChallenge p cycles (.phase1 s) r = _
        rw [ingestChallenge, hs.shouldTransition]
        simp [hone]

end IncPhase

variable [DecidableEq F] {rs : List C}

/-- The phase after some challenges. -/
theorem IncPhase.phase_iff (h : p.WellFormed cycles) (hvars : 2 ≤ p.nCycleVars) (hrs : rs.length ≤ p.nCycleVars) :
    ∃ s, (IncPhase1.start p cycles).bind (fun s => (prover p cycles).after (.phase1 s) rs) = .some s ∧
      ((∃ s1, s = .phase1 s1) ↔ rs.length < p.nCycleVars / 2) := by
  obtain ⟨s0, hstart, hat⟩ := IncPhase1.start_at h hvars
  obtain ⟨s, hafter, hlast⟩ := (exact h).after rs (n := p.nCycleVars - rs.length) (z := []) (s := .phase1 s0)
    (by rwa [Nat.sub_add_cancel hrs])
  refine ⟨s, by rw [hstart]; exact hafter, ?_⟩
  rw [List.append_nil] at hlast
  cases s with
  | phase1 s =>
    have hleft := IncPhase1.At.left hlast
    rw [List.length_reverse, List.length_map] at hleft
    exact iff_of_true ⟨s, rfl⟩ hleft
  | phase2 s =>
    have hexhausted := IncPhase2.At.exhausted hlast
    rw [List.length_reverse, List.length_map] at hexhausted
    exact iff_of_false nofun (by omega)

/-- The increments' sumcheck is the direct one in every round, with the claims at its point. -/
theorem IncPhase.run_eq (h : p.WellFormed cycles) (hvars : 2 ≤ p.nCycleVars) (hrs : rs.length = p.nCycleVars) :
    ∃ ps, run p cycles (cubeSum (p.summand cycles) p.nCycleVars []) rs =
        .some (ps, p.summand cycles (intoPoint rs.reverse), incMle p.nCycleVars cycles .RamInc (intoPoint rs.reverse),
          incMle p.nCycleVars cycles .RdInc (intoPoint rs.reverse)) ∧
      Direct (p.summand cycles) 2 [] rs ps := by
  obtain ⟨s0, hstart, hat⟩ := IncPhase1.start_at h hvars
  obtain ⟨ps, s, hrounds, hdirect, hlast⟩ := (exact h).rounds rs (z := []) (s := .phase1 s0) (by rwa [hrs])
  rw [List.append_nil, ← List.map_reverse, ← intoPoint] at hrounds hlast
  refine ⟨ps, ?_, hdirect⟩
  rw [hrs] at hrounds
  rw [run, hstart, Option.bind_eq_bind, Option.bind_some, hrounds, Option.bind_eq_bind, Option.bind_some]
  cases s with
  | phase1 s =>
    have hleft := IncPhase1.At.left hlast
    rw [length_intoPoint, List.length_reverse] at hleft
    omega
  | phase2 s =>
    obtain ⟨-, -, hram, hrd, -, -⟩ : s.At p cycles 0 _ := hlast
    rw [tableLow_zero] at hram hrd
    simp [cacheOpenings, hram, hrd, DensePolynomial.finalSumcheckClaim]

omit [DecidableEq F] in
/-- What the verifier expects is the same function at its challenges. -/
theorem IncClaimReductionParams.expectedOutputClaim_eq (rs : List C) :
    p.expectedOutputClaim (incMle p.nCycleVars cycles .RamInc (intoPoint rs.reverse))
      (incMle p.nCycleVars cycles .RdInc (intoPoint rs.reverse)) rs = p.summand cycles (intoPoint rs.reverse) := by
  rw [summand_eq_suffix]
  simp only [IncClaimReductionParams.expectedOutputClaim, productsAt, incSuffixProducts, eqCombined, EqPolynomial.mle_eq,
    List.map_cons, List.map_nil, List.sum_cons, List.sum_nil]
  ring

omit [DecidableEq F] in
/-- The claim the sumcheck starts with, of the increments at the points of the earlier stages. -/
theorem IncClaimReductionParams.inputClaim_eq (h : p.WellFormed cycles) {claim : OpeningId → Option F}
    (htrue : p.TrueClaims cycles claim) :
    p.inputClaim claim = .some (cubeSum (p.summand cycles) p.nCycleVars []) := by
  have hsum : cubeSum (p.summand cycles) p.nCycleVars [] =
      (p.claims.map fun c => c.1 * incMle p.nCycleVars cycles c.2.1 (intoPoint c.2.2)).sum := by
    simp only [cubeSum, List.append_nil, IncClaimReductionParams.summand]
    rw [sum_map_sum]
    congr 1
    refine List.map_congr_left fun c hc => ?_
    have hpoint := (affine_mleOf p.nCycleVars (incAt (F := F) cycles c.2.1)).sum_eqMle [] (intoPoint c.2.2)
    rw [length_intoPoint, h.points c hc] at hpoint
    rw [← mul_sum]
    exact congrArg _ hpoint
  rw [hsum, inputClaim, htrue.ramStage2, htrue.ramStage4, htrue.rdStage4, htrue.rdStage5]
  simp only [Option.bind_eq_bind, Option.bind_some, IncClaimReductionParams.claims, List.map_cons, List.map_nil,
    List.sum_cons, List.sum_nil]
  congr 1
  ring

end Steps

end LightningJolt
