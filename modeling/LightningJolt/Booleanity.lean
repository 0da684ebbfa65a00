/-
The booleanity sumcheck (`jolt-core/src/subprotocols/booleanity.rs`): the prover's phase over the
addresses and its phase over the cycles, the verifier, and when the two are the direct sumcheck.
-/
import LightningJolt.GruenRounds
import LightningJolt.IncReduction
import LightningJolt.RaPushforward
import LightningJolt.ScalarField

namespace LightningJolt

open Finset

variable {F C : Type} [JoltField F] [Challenge C F]

/-! ## The parameters -/

/-- `BooleanitySumcheckParams`, with the batching challenge in the field. -/
structure BooleanityParams (F C : Type) where
  gamma : F
  rAddress : List C
  rCycle : List C

namespace BooleanityParams

/-- `new`, from the point of stage 5, the batching challenge, the challenges drawn for a point that is too
short, and `F::Challenge::from(1)`, which stands in for a batching challenge whose value is zero. -/
def new [DecidableEq F] (p : OneHotParams) (stage5Point : List C) (gamma : C) (extra : List C) (one : C) :
    BooleanityParams F C :=
  let stage5Addr := (stage5Point.take p.lookupsRaVirtualLogKChunk).reverse
  let gammaF : F := Challenge.into gamma
  { gamma := if gammaF = 0 then Challenge.into one else gammaF
    rAddress := if p.logKChunk ≤ stage5Addr.length then stage5Addr.drop (stage5Addr.length - p.logKChunk)
      else stage5Addr ++ extra
    rCycle := (stage5Point.drop p.lookupsRaVirtualLogKChunk).reverse }

variable (bp : BooleanityParams F C)

/-- `gamma_powers`. -/
def gammaPowers (i : Nat) : F := bp.gamma ^ i

/-- `gamma_powers_square`. -/
def gammaPowersSquare (i : Nat) : F := (bp.gamma * bp.gamma) ^ i

/-- `expected_output_claim`. -/
def expectedOutputClaim (p : OneHotParams) (raClaim : Nat → F) (sumcheckChallenges : List C) : F :=
  EqPolynomial.mle (coordinates F sumcheckChallenges) (coordinates F (bp.rAddress.reverse ++ bp.rCycle.reverse)) *
    ((List.range p.numPolys).map fun i => (raClaim i * raClaim i - raClaim i) * bp.gammaPowersSquare i).sum

end BooleanityParams

/-! ## The prover -/

/-- `BooleanitySumcheckProver`, with the number of the round. -/
structure BooleanityProver (F C : Type) where
  gammaPowersInv : List F
  B : GruenSplitEqPolynomial F C
  D : GruenSplitEqPolynomial F C
  G : List (List F)
  H : Option (SharedRaPolynomials F)
  table : ExpandingTable F
  eqRR : F
  raIndices : List RaIndices
  round : Nat

namespace BooleanityProver

variable [DecidableEq F] (bp : BooleanityParams F C) (p : OneHotParams)

/-- `initialize`. -/
def start (numThreads : Nat) (cycles : List CycleWitness) : Option (BooleanityProver F C) := do
  .some {
    G := ← computeAllG numThreads p cycles bp.rCycle
    raIndices := collectRaIndices p cycles bp.rCycle.length
    B := ← GruenSplitEqPolynomial.newWithScaling bp.rAddress .lowToHigh .none
    D := ← GruenSplitEqPolynomial.newWithScaling bp.rCycle .lowToHigh .none
    table := ← ExpandingTable.reset (ExpandingTable.new (2 ^ p.logKChunk) .lowToHigh) 1
    gammaPowersInv := ← (List.range p.numPolys).mapM fun i => inverse (bp.gammaPowers i)
    H := .none
    eqRR := 0
    round := 0 }

/-- What the addresses of a block add to the coefficients. -/
def blockCoeffs (m : Nat) (table : ExpandingTable F) (G : List F) (kPrime : Nat) : Option (F × F) := do
  let terms ← (List.range (2 ^ m)).mapM fun k => do
    let Gk ← G[kPrime <<< m + k]?
    let kM := k >>> (m - 1)
    let Fk ← table.cloneValues[k &&& (2 ^ (m - 1) - 1)]?
    let GTimesF := Gk * Fk
    let evalInfty := GTimesF * Fk
    let eval0 := if kM = 0 then evalInfty - GTimesF else 0
    .some (eval0, evalInfty)
  .some ((terms.map (·.1)).sum, (terms.map (·.2)).sum)

omit [DecidableEq F] in
/-- The quadratic coefficients of a block. -/
def addressCoeffs (s : BooleanityProver F C) (kPrime : Nat) : Option (List F) := do
  let m := s.round + 1
  let sums ← (List.range p.numPolys).mapM fun i => do
    let (eval0, evalInfty) ← blockCoeffs m s.table (← s.G[i]?) kPrime
    .some (bp.gammaPowersSquare i * eval0, bp.gammaPowersSquare i * evalInfty)
  .some [(sums.map (·.1)).sum, (sums.map (·.2)).sum]

/-- `compute_phase1_message`. -/
def computePhase1Message (s : BooleanityProver F C) (previousClaim : F) : Option (UniPoly F) := do
  let coeffs ← s.B.parFoldOutInUnreduced 2 (addressCoeffs bp p s)
  s.B.gruenPolyDeg3 (← coeffs[0]?) (← coeffs[1]?) previousClaim

omit [DecidableEq F] in
/-- The quadratic coefficients of a pair of cycles. -/
def cycleCoeffs (H : SharedRaPolynomials F) (jPrime : Nat) : Option (List F) := do
  let terms ← (List.range p.numPolys).mapM fun i => do
    let h0 ← H.getBoundCoeff i (2 * jPrime)
    let h1 ← H.getBoundCoeff i (2 * jPrime + 1)
    let b := h1 - h0
    let rho := bp.gammaPowers i
    .some (h0 * (h0 - rho), b * b)
  .some [(terms.map (·.1)).sum, (terms.map (·.2)).sum]

/-- `compute_phase2_message`. -/
def computePhase2Message (s : BooleanityProver F C) (previousClaim : F) : Option (UniPoly F) := do
  let H ← s.H
  let coeffs ← s.D.parFoldOutInUnreduced 2 (cycleCoeffs bp p H)
  let adjustedClaim := previousClaim * (← inverse s.eqRR)
  let gruenPoly ← s.D.gruenPolyDeg3 (← coeffs[0]?) (← coeffs[1]?) adjustedClaim
  .some ⟨gruenPoly.coeffs.map (· * s.eqRR)⟩

/-- `compute_message`. -/
def computeMessage (s : BooleanityProver F C) (previousClaim : F) : Option (UniPoly F) :=
  if s.round < p.logKChunk then computePhase1Message bp p s previousClaim
  else computePhase2Message bp p s previousClaim

omit [DecidableEq F] in
/-- `ingest_challenge`. -/
def ingestChallenge (s : BooleanityProver F C) (r : C) : Option (BooleanityProver F C) :=
  if s.round < p.logKChunk then do
    let B ← s.B.bind r
    let table ← s.table.update (Challenge.into r)
    if s.round = p.logKChunk - 1 then
      let tables := tableOf p.numPolys fun i => table.cloneValues.map (bp.gammaPowers i * ·)
      .some { s with
        B, table, eqRR := B.currentScalar, G := [], raIndices := []
        H := .some (SharedRaPolynomials.new tables s.raIndices p), round := s.round + 1 }
    else .some { s with B, table, round := s.round + 1 }
  else do
    let D ← s.D.bind r
    match s.H with
    | .none => .some { s with D, round := s.round + 1 }
    | .some H => .some { s with D, H := .some (← H.bind .lowToHigh (Challenge.into r)), round := s.round + 1 }

/-- The prover of the sumcheck. -/
def prover : FallibleProver (BooleanityProver F C) F C where
  computeMessage := computeMessage bp p
  ingestChallenge := ingestChallenge bp p

omit [DecidableEq F] [Challenge C F] in
/-- `cache_openings`: the point's parts and the claims, the scaling undone. -/
def cacheOpenings (s : BooleanityProver F C) (sumcheckChallenges : List C) : Option (List C × List C × List F) := do
  let H ← s.H
  let claims ← (List.range p.numPolys).mapM fun i => do
    .some ((← H.finalSumcheckClaim i) * (← s.gammaPowersInv[i]?))
  .some ((sumcheckChallenges.take p.logKChunk).reverse, (sumcheckChallenges.drop p.logKChunk).reverse, claims)

/-- The whole sumcheck: the messages, the last claim and the openings. -/
def run (numThreads : Nat) (cycles : List CycleWitness) (claim : F) (rs : List C) :
    Option (List (UniPoly F) × F × List C × List C × List F) := do
  let (ps, s, last) ← (prover bp p).rounds (← start bp p numThreads cycles) claim rs
  .some (ps, last, ← cacheOpenings p s rs)

end BooleanityProver

/-! ## The direct sumcheck -/

namespace BooleanityParams

variable (bp : BooleanityParams F C) (p : OneHotParams) (cycles : List CycleWitness)

/-- The point of the reference, the coordinates of the cycle first. -/
def reference : List F := coordinates F bp.rCycle ++ coordinates F bp.rAddress

/-- A polynomial at a point, the coordinates of the cycle first. -/
def ra (i : Nat) (x : List F) : F :=
  mleOf bp.rCycle.length (fun j => ((indexAt p cycles i j).map fun k => eqAt (x.drop bp.rCycle.length) k).getD 0)
    (x.take bp.rCycle.length)

/-- What the direct sumcheck sums. -/
def summand (x : List F) : F :=
  eqMle bp.reference x * ∑ i ∈ range p.numPolys, bp.gammaPowersSquare i *
    (bp.ra p cycles i x * bp.ra p cycles i x - bp.ra p cycles i x)

/-- In the round after the challenges of `z` the provers divide by a number that is not zero. -/
def Divides (z : List F) : Prop :=
  eqMle (bp.reference.drop (bp.reference.length - z.length - 1)) (1 :: z) ≠ 0

end BooleanityParams

/-! ## The addresses of the polynomials -/

section Addresses

variable {p : OneHotParams} {cycles : List CycleWitness}

theorem getIndex_eq (hbounds : p.RaBounds) {i : Nat} (hi : i < p.numPolys) {j : Nat} (hj : j < cycles.length) :
    (RaIndices.fromCycle p cycles[j]).getIndex i p = .some (indexAt p cycles i j) ∧
      ∀ k, indexAt p cycles i j = .some k → k < 2 ^ p.logKChunk := by
  have hindex : indexAt p cycles i j = p.chunkIndex cycles[j] (p.polynomialAt i) := by
    rw [indexAt_eq hbounds cycles hi, List.getElem?_eq_getElem hj, Option.bind_some]
  exact ⟨by rw [getIndex_fromCycle hbounds _ hi, hindex], fun k hk => p.chunkIndex_lt (hindex.symm.trans hk)⟩

end Addresses

/-! ## The sum over the cycles first -/

namespace BooleanityParams

variable {bp : BooleanityParams F C} {p : OneHotParams} {cycles : List CycleWitness}

/-- What the sumcheck is over: chunks of four or eight bits, an address point of one, a padded trace
of as many cycles as the other point has coordinates for, and a challenge as `new` leaves it. -/
structure WellFormed (bp : BooleanityParams F C) (p : OneHotParams) (cycles : List CycleWitness) : Prop where
  chunk : p.logKChunk = 4 ∨ p.logKChunk = 8
  address : bp.rAddress.length = p.logKChunk
  trace : cycles.length = 2 ^ bp.rCycle.length
  padded : 8 ≤ cycles.length
  gamma : bp.gamma ≠ 0

theorem wellFormed_new [DecidableEq F] (p : OneHotParams) (hchunk : p.logKChunk = 4 ∨ p.logKChunk = 8)
    {stage5Point extra : List C} {logT : Nat} (hpoint : stage5Point.length = p.lookupsRaVirtualLogKChunk + logT)
    (hextra : extra.length = p.logKChunk - p.lookupsRaVirtualLogKChunk) {cycles : List CycleWitness}
    (htrace : cycles.length = 2 ^ logT) (hpadded : 8 ≤ cycles.length) (gamma : C) {one : C}
    (hone : (Challenge.into one : F) ≠ 0) : (new p stage5Point gamma extra one : BooleanityParams F C).WellFormed p cycles where
  chunk := hchunk
  address := by
    have hstage : (stage5Point.take p.lookupsRaVirtualLogKChunk).reverse.length = p.lookupsRaVirtualLogKChunk := by
      rw [List.length_reverse, List.length_take, hpoint]
      omega
    simp only [new, hstage]
    split_ifs with hle
    · rw [List.length_drop, hstage]
      omega
    · rw [List.length_append, hstage, hextra]
      omega
  trace := by
    simp only [new, List.length_reverse, List.length_drop, hpoint, Nat.add_sub_cancel_left]
    exact htrace
  padded := hpadded
  gamma := by
    simp only [new]
    split_ifs with hzero
    · exact hone
    · exact hzero

/-- With the challenges of BN254, of which `from(1)` is `2 ^ 128` in Montgomery form. -/
theorem wellFormed_montU128 (p : OneHotParams) (hchunk : p.logKChunk = 4 ∨ p.logKChunk = 8)
    {stage5Point extra : List MontU128Challenge} {logT : Nat}
    (hpoint : stage5Point.length = p.lookupsRaVirtualLogKChunk + logT)
    (hextra : extra.length = p.logKChunk - p.lookupsRaVirtualLogKChunk) {cycles : List CycleWitness}
    (htrace : cycles.length = 2 ^ logT) (hpadded : 8 ≤ cycles.length) (gamma : MontU128Challenge) :
    (new p stage5Point gamma extra (.new 1) : BooleanityParams Fr MontU128Challenge).WellFormed p cycles := by
  refine wellFormed_new p hchunk hpoint hextra htrace hpadded gamma ?_
  have hpow : (2 ^ 256 : Fr) ≠ 0 := pow_ne_zero 256 JoltField.two_ne_zero
  refine mul_ne_zero ?_ (inv_ne_zero hpow)
  have hlimbs : (MontU128Challenge.new 1).toBigintArray = [0, 0, 1, 0] := by decide
  rw [hlimbs]
  decide

omit [Challenge C F] in
theorem WellFormed.rounds {bp : BooleanityParams F C} {p : OneHotParams} {cycles : List CycleWitness}
    (h : bp.WellFormed p cycles) : 3 ≤ bp.rCycle.length := by
  have hpadded := h.padded
  rw [h.trace] at hpadded
  by_contra hlt
  have hsmall : 2 ^ bp.rCycle.length ≤ 2 ^ 2 := Nat.pow_le_pow_right (by decide) (by omega)
  omega

/-- The pushforward of the polynomial of an index. -/
abbrev pushforwardAt (bp : BooleanityParams F C) (p : OneHotParams) (cycles : List CycleWitness) (i : Nat) : Nat → F :=
  pushforwardOf p cycles bp.rCycle (p.polynomialAt i)

/-- It sums over the padded trace. -/
theorem WellFormed.pushforwardAt_eq (h : bp.WellFormed p cycles) (hbounds : p.RaBounds) {i : Nat}
    (hi : i < p.numPolys) (k : Nat) : bp.pushforwardAt p cycles i k =
      ∑ j ∈ range (2 ^ bp.rCycle.length),
        if indexAt p cycles i j = .some k then eqAt (coordinates F bp.rCycle) j else 0 := by
  rw [pushforwardAt, pushforwardOf, h.trace]
  refine sum_congr rfl fun j _ => ?_
  rw [indexAt_eq hbounds cycles hi]
  rfl

theorem WellFormed.computeAllG_eq (h : bp.WellFormed p cycles) (hbounds : p.RaBounds) {numThreads : Nat}
    (hthreads : 0 < numThreads) : computeAllG numThreads p cycles bp.rCycle =
      .some (tableOf p.numPolys fun i => tableOf (2 ^ p.logKChunk) (bp.pushforwardAt p cycles i)) := by
  rw [LightningJolt.computeAllG_eq hbounds hthreads h.trace.le, polynomialTypes_eq, tableOf, tableOf, List.map_map]
  rfl

/-- The value of a polynomial in a cycle, at an address. -/
def cellAt (p : OneHotParams) (cycles : List CycleWitness) (i : Nat) (y : List F) (j : Nat) : F :=
  ((indexAt p cycles i j).map fun k => eqAt y k).getD 0

omit [Challenge C F] in
theorem ra_bits {j : Nat} (hj : j < 2 ^ bp.rCycle.length) (i : Nat) (y : List F) :
    bp.ra p cycles i (bitsPoint bp.rCycle.length j ++ y) = cellAt p cycles i y j := by
  rw [ra, List.drop_left' (length_bitsPoint _ _), List.take_left' (length_bitsPoint _ _), mleOf_bitsPoint _ hj]
  rfl

theorem summand_bits {j : Nat} (hj : j < 2 ^ bp.rCycle.length) (y : List F) :
    bp.summand p cycles (bitsPoint bp.rCycle.length j ++ y) =
      eqAt (coordinates F bp.rCycle) j * eqMle (coordinates F bp.rAddress) y *
        ∑ i ∈ range p.numPolys, bp.gammaPowersSquare i *
          (cellAt p cycles i y j * cellAt p cycles i y j - cellAt p cycles i y j) := by
  have hentry : eqAt (coordinates F bp.rCycle) j = eqMle (coordinates F bp.rCycle) (bitsPoint bp.rCycle.length j) := by
    rw [eqAt_eq_eqMle _ (by rwa [length_coordinates]), length_coordinates]
  simp only [summand, ra_bits hj]
  rw [reference, eqMle_append (by rw [length_coordinates, length_bitsPoint]), hentry]

/-- **The cycles summed over**, the pushforwards are weighed with a square less itself. -/
theorem sum_cycles (h : bp.WellFormed p cycles) (hbounds : p.RaBounds) (y : List F) :
    ∑ j ∈ range (2 ^ bp.rCycle.length), bp.summand p cycles (bitsPoint bp.rCycle.length j ++ y) =
      eqMle (coordinates F bp.rAddress) y * ∑ i ∈ range p.numPolys, bp.gammaPowersSquare i *
        ∑ k ∈ range (2 ^ p.logKChunk), bp.pushforwardAt p cycles i k * (eqAt y k * eqAt y k - eqAt y k) := by
  have hcell : ∀ i < p.numPolys, ∀ j < 2 ^ bp.rCycle.length,
      cellAt p cycles i y j * cellAt p cycles i y j - cellAt p cycles i y j =
        ∑ k ∈ range (2 ^ p.logKChunk), if indexAt p cycles i j = .some k then eqAt y k * eqAt y k - eqAt y k else 0 := by
    intro i hi j hj
    have hlt := (getIndex_eq hbounds hi (show j < cycles.length by rwa [h.trace])).2
    rw [cellAt]
    cases hindex : indexAt p cycles i j with
    | none => simp
    | some k =>
      have hk := hlt k hindex
      simp only [Option.map_some, Option.getD_some, Option.some.injEq]
      rw [sum_ite_eq (range (2 ^ p.logKChunk)) k, if_pos (mem_range.mpr hk)]
  have hterm : ∀ j ∈ range (2 ^ bp.rCycle.length), bp.summand p cycles (bitsPoint bp.rCycle.length j ++ y) =
      ∑ i ∈ range p.numPolys, ∑ k ∈ range (2 ^ p.logKChunk), eqMle (coordinates F bp.rAddress) y *
        (bp.gammaPowersSquare i * ((if indexAt p cycles i j = .some k then eqAt (coordinates F bp.rCycle) j else 0) *
          (eqAt y k * eqAt y k - eqAt y k))) := by
    intro j hj
    have hj := mem_range.mp hj
    rw [summand_bits hj, mul_sum]
    refine sum_congr rfl fun i hi => ?_
    rw [hcell i (mem_range.mp hi) j hj, mul_sum, mul_sum]
    refine sum_congr rfl fun k _ => ?_
    split_ifs
    · ring
    · ring
  rw [sum_congr rfl hterm, sum_comm, mul_sum]
  refine sum_congr rfl fun i hi => ?_
  rw [sum_comm, mul_sum, mul_sum]
  refine sum_congr rfl fun k _ => ?_
  rw [h.pushforwardAt_eq hbounds (mem_range.mp hi), ← mul_sum, ← mul_sum, ← sum_mul]

end BooleanityParams

/-! ## A block of addresses -/

theorem eqAt_cons (x : F) (z : List F) {k : Nat} (hk : k < 2 ^ (z.length + 1)) :
    eqAt (x :: z) k = (if k / 2 ^ z.length = 0 then 1 - x else x) * eqAt z (k % 2 ^ z.length) := by
  have happ := eqAt_append [x] z (k / 2 ^ z.length) (Nat.mod_lt k (Nat.two_pow_pos z.length))
  rw [Nat.div_add_mod'] at happ
  have hbit : k / 2 ^ z.length < 2 := Nat.div_lt_of_lt_mul (by rwa [← pow_succ])
  refine happ.trans (congrArg (· * _) ?_)
  rw [eqAt, eqTable_singleton]
  by_cases hzero : k / 2 ^ z.length = 0
  · rw [if_pos hzero, hzero]
    rfl
  · have hone : k / 2 ^ z.length = 1 := by
      generalize k / 2 ^ z.length = b at *
      omega
    rw [if_neg hzero, hone]
    rfl

theorem eqAt_block {h a b k : Nat} (ha : a < 2 ^ h) (hb : b < 2 ^ h) {v : List F} (hk : k < 2 ^ v.length) :
    eqAt (bitsPoint h a ++ v) (b * 2 ^ v.length + k) = if a = b then eqAt v k else 0 := by
  rw [eqAt_append _ _ _ hk, eqAt_eq_eqMle (bitsPoint h a) (by rwa [length_bitsPoint]), length_bitsPoint,
    eqMle_bitsPoint ha hb]
  split_ifs
  · rw [one_mul]
  · rw [zero_mul]

section Block

variable (col : Nat → F) (z : List F) (a : Nat)

/-- The constant coefficient of a block. -/
def blockConstant : F := ∑ k ∈ range (2 ^ (z.length + 1)),
  if k / 2 ^ z.length = 0 then col (a * 2 ^ (z.length + 1) + k) * eqAt z (k % 2 ^ z.length) * eqAt z (k % 2 ^ z.length) -
    col (a * 2 ^ (z.length + 1) + k) * eqAt z (k % 2 ^ z.length) else 0

/-- The linear coefficient of a block. -/
def blockLinear : F := ∑ k ∈ range (2 ^ (z.length + 1)), col (a * 2 ^ (z.length + 1) + k) *
  if k / 2 ^ z.length = 0 then eqAt z (k % 2 ^ z.length) - 2 * (eqAt z (k % 2 ^ z.length) * eqAt z (k % 2 ^ z.length))
  else -eqAt z (k % 2 ^ z.length)

/-- The leading coefficient of a block. -/
def blockLeading : F := ∑ k ∈ range (2 ^ (z.length + 1)),
  col (a * 2 ^ (z.length + 1) + k) * eqAt z (k % 2 ^ z.length) * eqAt z (k % 2 ^ z.length)

variable {col z a}

/-- With a variable behind the bits of a block only the addresses of the block count. -/
theorem sum_block {h : Nat} (ha : a < 2 ^ h) (x : F) :
    ∑ k ∈ range (2 ^ (h + (z.length + 1))), col k * (eqAt (bitsPoint h a ++ x :: z) k *
      eqAt (bitsPoint h a ++ x :: z) k - eqAt (bitsPoint h a ++ x :: z) k) =
      blockConstant col z a + blockLinear col z a * x + blockLeading col z a * (x * x) := by
  have hentry : ∀ b < 2 ^ h, ∀ k < 2 ^ (z.length + 1), eqAt (bitsPoint h a ++ x :: z) (b * 2 ^ (z.length + 1) + k) =
      if a = b then eqAt (x :: z) k else 0 := fun b hb k hk => eqAt_block ha hb (v := x :: z) hk
  rw [pow_add, sum_range_mul, sum_eq_single_of_mem a (mem_range.mpr ha) fun b hb hne => ?_]
  · rw [blockConstant, blockLinear, blockLeading, sum_mul, sum_mul, ← sum_add_distrib, ← sum_add_distrib]
    refine sum_congr rfl fun k hk => ?_
    have hk := mem_range.mp hk
    rw [hentry a ha k hk, if_pos rfl, eqAt_cons x z hk]
    split_ifs
    · ring
    · ring
  · refine sum_eq_zero fun k hk => ?_
    rw [hentry b (mem_range.mp hb) k (mem_range.mp hk), if_neg hne.symm]
    ring

theorem blockCoeffs_eq {h n : Nat} (hn : n = h + (z.length + 1)) (ha : a < 2 ^ h) {table : ExpandingTable F}
    (htable : table.cloneValues = eqTable z) :
    BooleanityProver.blockCoeffs (z.length + 1) table (tableOf (2 ^ n) col) a =
      .some (blockConstant col z a, blockLeading col z a) := by
  have hterm : ∀ k < 2 ^ (z.length + 1), (do
      let Gk ← (tableOf (2 ^ n) col)[a <<< (z.length + 1) + k]?
      let kM := k >>> (z.length + 1 - 1)
      let Fk ← table.cloneValues[k &&& (2 ^ (z.length + 1 - 1) - 1)]?
      let GTimesF := Gk * Fk
      let evalInfty := GTimesF * Fk
      let eval0 := if kM = 0 then evalInfty - GTimesF else 0
      .some (eval0, evalInfty)) =
      .some ((if k / 2 ^ z.length = 0 then
          col (a * 2 ^ (z.length + 1) + k) * eqAt z (k % 2 ^ z.length) * eqAt z (k % 2 ^ z.length) -
            col (a * 2 ^ (z.length + 1) + k) * eqAt z (k % 2 ^ z.length) else 0),
        col (a * 2 ^ (z.length + 1) + k) * eqAt z (k % 2 ^ z.length) * eqAt z (k % 2 ^ z.length)) := by
    intro k hk
    have hindex : a * 2 ^ (z.length + 1) + k < 2 ^ n := by
      have hnext : (a + 1) * 2 ^ (z.length + 1) ≤ 2 ^ h * 2 ^ (z.length + 1) := Nat.mul_le_mul_right _ ha
      rw [Nat.succ_mul, ← pow_add, ← hn] at hnext
      exact (Nat.add_lt_add_left hk _).trans_le hnext
    rw [Nat.shiftLeft_eq, getElem?_tableOf hindex, Nat.add_sub_cancel, Nat.and_two_pow_sub_one_eq_mod, htable,
      getElem?_eqTable (Nat.mod_lt _ (Nat.two_pow_pos _)), Nat.shiftRight_eq_div_pow]
    rfl
  rw [BooleanityProver.blockCoeffs, mapM_range hterm, Option.bind_eq_bind, Option.bind_some, map_tableOf, map_tableOf]
  rfl

end Block

/-! ## The phase over the addresses -/

namespace BooleanityProver

open GruenSplitEqPolynomial (LowAt)

variable {bp : BooleanityParams F C} {p : OneHotParams} {cycles : List CycleWitness} {n : Nat} {z : List F}
  {s : BooleanityProver F C}

/-- The state with the challenges of `z` bound, some addresses to come. -/
structure AtAddresses (bp : BooleanityParams F C) (p : OneHotParams) (cycles : List CycleWitness) (n : Nat) (z : List F)
    (s : BooleanityProver F C) : Prop where
  bound : ∃ cs : List C, z = (coordinates F cs).reverse ∧ n + cs.length = bp.rCycle.length + p.logKChunk ∧
    cs.length < p.logKChunk ∧ LowAt 1 bp.rAddress cs s.B ∧ s.round = cs.length
  D : LowAt 1 bp.rCycle [] s.D
  G : s.G = tableOf p.numPolys fun i => tableOf (2 ^ p.logKChunk) (bp.pushforwardAt p cycles i)
  capacity : s.table.HasCapacity (2 ^ p.logKChunk)
  order : s.table.bindingOrder = .lowToHigh
  len : s.table.len = 2 ^ z.length
  values : s.table.cloneValues = eqTable z
  indices : s.raIndices = cycles.map (RaIndices.fromCycle p)
  inv : s.gammaPowersInv = tableOf p.numPolys fun i => (bp.gammaPowers i)⁻¹

/-- The tables of the second phase, the addresses being bound. -/
def scaledTables (bp : BooleanityParams F C) (p : OneHotParams) (a : List F) : List (List F) :=
  tableOf p.numPolys fun i => (eqTable a).map (bp.gammaPowers i * ·)

/-- The state with the challenges of `z` bound, all addresses among them. -/
structure AtCycles (bp : BooleanityParams F C) (p : OneHotParams) (cycles : List CycleWitness) (n : Nat) (z : List F)
    (s : BooleanityProver F C) : Prop where
  bound : ∃ as cs : List C, z = (coordinates F cs).reverse ++ (coordinates F as).reverse ∧ as.length = p.logKChunk ∧
    n + cs.length = bp.rCycle.length ∧ LowAt 1 bp.rCycle cs s.D ∧
    s.eqRR = eqMle (coordinates F bp.rAddress) (coordinates F as).reverse ∧
    (∃ H, s.H = .some H ∧ (SharedRaPolynomials.new (scaledTables bp p (coordinates F as).reverse)
      (cycles.map (RaIndices.fromCycle p)) p).bindAll .lowToHigh (coordinates F cs) = .some H) ∧
    s.round = p.logKChunk + cs.length
  inv : s.gammaPowersInv = tableOf p.numPolys fun i => (bp.gammaPowers i)⁻¹

/-- The sum of a round over the addresses. -/
theorem quadraticSum_addresses (h : bp.WellFormed p cycles) (hbounds : p.RaBounds) {k : Nat}
    (hk : k + (z.length + 1) = p.logKChunk) (x : F) :
    quadraticSum (coordinates F bp.rAddress)
        (fun a => ∑ i ∈ range p.numPolys, bp.gammaPowersSquare i * blockConstant (bp.pushforwardAt p cycles i) z a)
        (fun a => ∑ i ∈ range p.numPolys, bp.gammaPowersSquare i * blockLinear (bp.pushforwardAt p cycles i) z a)
        (fun a => ∑ i ∈ range p.numPolys, bp.gammaPowersSquare i * blockLeading (bp.pushforwardAt p cycles i) z a)
        k z x =
      cubeSum (bp.summand p cycles) (bp.rCycle.length + k) (x :: z) := by
  rw [cubeSum_add, cubeSum, quadraticSum]
  refine sum_congr rfl fun a ha => ?_
  rw [BooleanityParams.sum_cycles h hbounds, sum_mul, sum_mul, ← sum_add_distrib, ← sum_add_distrib]
  refine congrArg (_ * ·) (sum_congr rfl fun i _ => ?_)
  rw [← hk, sum_block (mem_range.mp ha)]
  ring

section Messages

variable [DecidableEq F]

theorem AtAddresses.message (h : bp.WellFormed p cycles) (hbounds : p.RaBounds) (hthree : (3 : F) ≠ 0)
    (hs : AtAddresses bp p cycles (n + 1) z s) :
    (bp.Divides z → ∃ q, computeMessage bp p s (cubeSum (bp.summand p cycles) (n + 1) z) = .some q ∧
      q.Is 3 fun x => cubeSum (bp.summand p cycles) n (x :: z)) ∧
    (¬ bp.Divides z → computeMessage bp p s (cubeSum (bp.summand p cycles) (n + 1) z) = .none) := by
  obtain ⟨cs, hz, hn, hlt, hlow, hround⟩ := hs.bound
  have hlen : z.length = cs.length := by rw [hz, List.length_reverse, length_coordinates]
  obtain ⟨k, hk⟩ : ∃ k, k + (z.length + 1) = p.logKChunk := ⟨p.logKChunk - (z.length + 1), by omega⟩
  have hnk : n = bp.rCycle.length + k := by omega
  have hvalues : ∀ a < 2 ^ k, addressCoeffs bp p s a =
      .some [∑ i ∈ range p.numPolys, bp.gammaPowersSquare i * blockConstant (bp.pushforwardAt p cycles i) z a,
        ∑ i ∈ range p.numPolys, bp.gammaPowersSquare i * blockLeading (bp.pushforwardAt p cycles i) z a] := by
    intro a ha
    have hterm : ∀ i < p.numPolys, (do
        let (eval0, evalInfty) ← blockCoeffs (s.round + 1) s.table (← s.G[i]?) a
        .some (bp.gammaPowersSquare i * eval0, bp.gammaPowersSquare i * evalInfty)) =
        .some (bp.gammaPowersSquare i * blockConstant (bp.pushforwardAt p cycles i) z a,
          bp.gammaPowersSquare i * blockLeading (bp.pushforwardAt p cycles i) z a) := by
      intro i hi
      rw [hs.G, getElem?_tableOf hi, Option.bind_eq_bind, Option.bind_some, hround, ← hlen,
        blockCoeffs_eq hk.symm ha hs.values]
      rfl
    rw [addressCoeffs]
    simp only
    rw [mapM_range hterm, Option.bind_eq_bind, Option.bind_some, map_tableOf, map_tableOf]
    rfl
  have hmessage : computeMessage bp p s (cubeSum (bp.summand p cycles) (n + 1) z) =
      gruenRound s.B (addressCoeffs bp p s) (cubeSum (bp.summand p cycles) (n + 1) z) := by
    rw [computeMessage, if_pos (by omega)]
    rfl
  have hsum := quadraticSum_addresses h hbounds hk
  have hdrop : bp.reference.drop (bp.reference.length - z.length - 1) = (coordinates F bp.rAddress).drop k := by
    rw [BooleanityParams.reference, List.length_append, length_coordinates, length_coordinates, h.address,
      show bp.rCycle.length + p.logKChunk - z.length - 1 = (coordinates F bp.rCycle).length + k by
        rw [length_coordinates]; omega, List.drop_length_add_append]
  have hclaim : ∀ Q : F → F, (∀ x, Q x = cubeSum (bp.summand p cycles) (bp.rCycle.length + k) (x :: z)) →
      cubeSum (bp.summand p cycles) (n + 1) z = Q 0 + Q 1 := fun Q hQ => by
    rw [hQ, hQ, ← hnk, ← cubeSum_succ]
  have hgruen := gruenRound_eq hlow (n := k) (by rw [h.address]; omega) hthree hvalues
    (hclaim _ fun x => by rw [← hz, hsum])
  rw [← hz] at hgruen
  rw [BooleanityParams.Divides, hdrop, hmessage, not_not]
  refine ⟨fun hgood => ?_, hgruen.1⟩
  obtain ⟨q, hq, his⟩ := hgruen.2 hgood
  exact ⟨q, hq, his.length, fun x => (his.value x).trans (by rw [hsum, hnk])⟩

end Messages

theorem AtAddresses.challenge (h : bp.WellFormed p cycles) (hs : AtAddresses bp p cycles (n + 1) z s) (r : C) :
    ∃ s', ingestChallenge bp p s r = .some s' ∧
      (AtAddresses bp p cycles n (Challenge.into r :: z) s' ∨ AtCycles bp p cycles n (Challenge.into r :: z) s') := by
  obtain ⟨cs, hz, hn, hlt, hlow, hround⟩ := hs.bound
  have hlen : z.length = cs.length := by rw [hz, List.length_reverse, length_coordinates]
  have hnext : Challenge.into r :: z = (coordinates F (cs ++ [r])).reverse := by
    rw [hz, coordinates, coordinates, List.map_append, List.reverse_append]
    rfl
  obtain ⟨B, hB, hlowB⟩ := hlow.bind (by rw [h.address]; exact hlt) r
  have hroom : 2 * s.table.len ≤ 2 ^ p.logKChunk := by
    rw [hs.len, hlen, ← pow_succ']
    exact Nat.pow_le_pow_right (by decide) hlt
  obtain ⟨table, htable, hcapacity, horder, htlen, hvalues⟩ :=
    ExpandingTable.update_eq hs.capacity hroom (Challenge.into r)
  have hclone : table.cloneValues = eqTable (Challenge.into r :: z) := by
    rw [hvalues, hs.order, hs.values]
    exact (EqPolynomial.expandHigh_eq _ _).trans (by rw [eqTable])
  rw [ingestChallenge, if_pos (by omega), hB, Option.bind_eq_bind, Option.bind_some, htable, Option.bind_eq_bind,
    Option.bind_some]
  by_cases hlast : s.round = p.logKChunk - 1
  · rw [if_pos hlast]
    refine ⟨_, rfl, .inr ⟨⟨cs ++ [r], [], hnext, ?_, ?_, hs.D, ?_, ⟨_, rfl, ?_⟩, ?_⟩, hs.inv⟩⟩
    · rw [List.length_append, List.length_singleton]
      omega
    · rw [List.length_nil]
      omega
    · have hscalar := hlowB.currentScalar
      rw [one_mul, List.length_append, List.length_singleton, h.address,
        show p.logKChunk - (cs.length + 1) = 0 by omega, List.drop_zero] at hscalar
      exact hscalar
    · rw [hs.indices, hclone, hnext]
      rfl
    · simp only [List.length_nil]
      omega
  · rw [if_neg hlast]
    refine ⟨_, rfl, .inl ⟨⟨cs ++ [r], hnext, ?_, ?_, hlowB, ?_⟩, hs.D, hs.G, hcapacity, horder.trans hs.order, ?_, hclone,
      hs.indices, hs.inv⟩⟩
    · rw [List.length_append, List.length_singleton]
      omega
    · rw [List.length_append, List.length_singleton]
      omega
    · rw [List.length_append, List.length_singleton, hround]
    · simp only
      rw [htlen, hs.len, List.length_cons, pow_succ']

end BooleanityProver

/-! ## The phase over the cycles -/

namespace BooleanityProver

open GruenSplitEqPolynomial (LowAt)

variable {bp : BooleanityParams F C} {p : OneHotParams} {cycles : List CycleWitness} {n : Nat} {z : List F}
  {s : BooleanityProver F C}

omit [Challenge C F] in
/-- What a scaled table holds in a cycle. -/
theorem sharedEntry_scaled (h : bp.WellFormed p cycles) (hbounds : p.RaBounds) {a : List F}
    (ha : a.length = p.logKChunk) {i j : Nat} (hi : i < p.numPolys) (hj : j < 2 ^ bp.rCycle.length) :
    sharedEntry p (scaledTables bp p a) (cycles.map (RaIndices.fromCycle p)) i j =
      .some (bp.gammaPowers i * BooleanityParams.cellAt p cycles i a j) := by
  have hcycle : j < cycles.length := by rwa [h.trace]
  obtain ⟨hindex, hlt⟩ := getIndex_eq hbounds hi hcycle
  rw [sharedEntry, List.getElem?_map, List.getElem?_eq_getElem hcycle, Option.map_some, Option.bind_eq_bind,
    Option.bind_some, hindex, Option.bind_eq_bind, Option.bind_some, BooleanityParams.cellAt]
  cases hk : indexAt p cycles i j with
  | none => simp
  | some k =>
    have hsmall := hlt k hk
    simp only [Option.map_some, Option.getD_some]
    rw [scaledTables, getElem?_tableOf hi, Option.bind_eq_bind, Option.bind_some, List.getElem?_map,
      getElem?_eqTable (by rwa [ha])]
    rfl

/-- The multilinear extension of a scaled polynomial, the addresses being bound. -/
def scaledMle (bp : BooleanityParams F C) (p : OneHotParams) (cycles : List CycleWitness) (a : List F) (i : Nat) :
    List F → F :=
  mleOf bp.rCycle.length fun j => bp.gammaPowers i * BooleanityParams.cellAt p cycles i a j

/-- After any number of challenges the shared polynomials are the scaled ones. -/
theorem shared_shows (h : bp.WellFormed p cycles) (hbounds : p.RaBounds) {a : List F}
    (ha : a.length = p.logKChunk) {cs : List C} (hcs : n + cs.length = bp.rCycle.length) :
    ∃ H, (SharedRaPolynomials.new (scaledTables bp p a) (cycles.map (RaIndices.fromCycle p)) p).bindAll .lowToHigh
        (coordinates F cs) = .some H ∧
      H.Shows p.numPolys fun i => tableLow (scaledMle bp p cycles a i) n (coordinates F cs).reverse := by
  obtain ⟨k, hk⟩ : ∃ k, bp.rCycle.length = k + 3 := ⟨bp.rCycle.length - 3, by have := h.rounds; omega⟩
  have height : 2 ^ bp.rCycle.length = 8 * 2 ^ k := by rw [hk, pow_add]; ring
  have hswap : ∀ rs, SharedRaPolynomials.SwapCancels .lowToHigh p.numPolys (2 ^ k)
      (fun i j => bp.gammaPowers i * BooleanityParams.cellAt p cycles i a j) rs := by
    intro rs
    match rs with
    | [] | [_] | [_, _] => trivial
    | _ :: _ :: _ :: _ => exact nofun
  have hexact := (SharedRaPolynomials.exact_of_entries_iff (k := k) (by rw [List.length_map, h.trace, height]) .lowToHigh
    (fun i hi j hj => sharedEntry_scaled h hbounds ha hi (by rwa [height])) (coordinates F cs)).mpr (hswap _)
  obtain ⟨H, hH, hshows⟩ := hexact _ (List.prefix_refl _)
  have htable : ∀ i, DensePolynomial.bindAll .lowToHigh (tableOf (8 * 2 ^ k) fun j =>
      bp.gammaPowers i * BooleanityParams.cellAt p cycles i a j) (coordinates F cs) =
      tableLow (scaledMle bp p cycles a i) n (coordinates F cs).reverse := by
    intro i
    have hlow := bindAll_tableLow (affine_mleOf bp.rCycle.length fun j =>
      bp.gammaPowers i * BooleanityParams.cellAt p cycles i a j) n [] (coordinates F cs)
    rw [length_coordinates, hcs, tableLow_mleOf, List.append_nil, height] at hlow
    exact hlow
  simp only [htable] at hshows
  exact ⟨H, hH, hshows⟩

omit [Challenge C F] in
/-- A polynomial at a point whose addresses are bound. -/
theorem ra_append {x a : List F} (hx : x.length = bp.rCycle.length) (i : Nat) :
    bp.gammaPowers i * bp.ra p cycles i (x ++ a) = scaledMle bp p cycles a i x := by
  rw [BooleanityParams.ra, List.drop_left' hx, List.take_left' hx, scaledMle, mleOf_const_mul]
  rfl

section Pair

variable (bp : BooleanityParams F C) (p : OneHotParams) (cycles : List CycleWitness) (a : List F) (k : Nat) (c : List F)
  (g i : Nat)

/-- The constant coefficient of a pair of cycles. -/
def constantAt : F := scaledMle bp p cycles a i (bitsPoint k g ++ 0 :: c) *
  (scaledMle bp p cycles a i (bitsPoint k g ++ 0 :: c) - bp.gammaPowers i)

/-- The slope of a pair of cycles. -/
def slopeAt : F :=
  scaledMle bp p cycles a i (bitsPoint k g ++ 1 :: c) - scaledMle bp p cycles a i (bitsPoint k g ++ 0 :: c)

/-- The linear coefficient of a pair of cycles. -/
def linearAt : F := slopeAt bp p cycles a k c g i *
  (2 * scaledMle bp p cycles a i (bitsPoint k g ++ 0 :: c) - bp.gammaPowers i)

/-- The leading coefficient of a pair of cycles. -/
def leadingAt : F := slopeAt bp p cycles a k c g i * slopeAt bp p cycles a k c g i

end Pair

/-- The sum of a round over the cycles. -/
theorem quadraticSum_cycles {k : Nat} {c : List F} (a : List F) (hk : k + (c.length + 1) = bp.rCycle.length) (x : F) :
    eqMle (coordinates F bp.rAddress) a * quadraticSum (coordinates F bp.rCycle)
        (fun g => ∑ i ∈ range p.numPolys, constantAt bp p cycles a k c g i)
        (fun g => ∑ i ∈ range p.numPolys, linearAt bp p cycles a k c g i)
        (fun g => ∑ i ∈ range p.numPolys, leadingAt bp p cycles a k c g i) k c x =
      cubeSum (bp.summand p cycles) k (x :: (c ++ a)) := by
  rw [cubeSum, quadraticSum, mul_sum]
  refine sum_congr rfl fun g _ => ?_
  have hpoint : (bitsPoint k g ++ x :: c : List F).length = bp.rCycle.length := by
    rw [List.length_append, length_bitsPoint, List.length_cons, hk]
  have hsplit : (bitsPoint k g ++ x :: (c ++ a) : List F) = (bitsPoint k g ++ x :: c) ++ a := by
    rw [List.append_assoc, List.cons_append]
  have hterm : ∀ i, bp.gammaPowersSquare i * (bp.ra p cycles i ((bitsPoint k g ++ x :: c) ++ a) *
      bp.ra p cycles i ((bitsPoint k g ++ x :: c) ++ a) - bp.ra p cycles i ((bitsPoint k g ++ x :: c) ++ a)) =
      scaledMle bp p cycles a i (bitsPoint k g ++ x :: c) *
        (scaledMle bp p cycles a i (bitsPoint k g ++ x :: c) - bp.gammaPowers i) := by
    intro i
    rw [← ra_append hpoint, BooleanityParams.gammaPowersSquare, BooleanityParams.gammaPowers, mul_pow]
    ring
  rw [hsplit, BooleanityParams.summand, BooleanityParams.reference,
    eqMle_append (by rw [length_coordinates, hpoint]), sum_congr rfl fun i _ => hterm i, sum_mul, sum_mul,
    ← sum_add_distrib, ← sum_add_distrib]
  have hlines : ∀ i, scaledMle bp p cycles a i (bitsPoint k g ++ x :: c) =
      scaledMle bp p cycles a i (bitsPoint k g ++ 0 :: c) + x * (scaledMle bp p cycles a i (bitsPoint k g ++ 1 :: c) -
        scaledMle bp p cycles a i (bitsPoint k g ++ 0 :: c)) := fun i => affine_mleOf _ _ (bitsPoint k g) x c
  rw [mul_left_comm, mul_assoc]
  refine congrArg (_ * ·) (congrArg (_ * ·) (sum_congr rfl fun i _ => ?_))
  rw [hlines i, constantAt, linearAt, leadingAt, slopeAt]
  ring

theorem horner_map_mul (k x : F) (cs : List F) : horner x (cs.map (· * k)) = horner x cs * k := by
  induction cs with
  | nil => simp [horner]
  | cons c cs ih =>
    simp only [List.map_cons, horner, List.foldr_cons] at ih ⊢
    rw [ih]
    ring

section Messages

variable [DecidableEq F]

/-- A message of the second phase by a round of its equality polynomial. -/
theorem computePhase2Message_eq {H : SharedRaPolynomials F} (hH : s.H = .some H) (previousClaim : F) :
    computePhase2Message bp p s previousClaim = (inverse s.eqRR).bind fun inv =>
      (gruenRound s.D (cycleCoeffs bp p H) (previousClaim * inv)).map fun q => ⟨q.coeffs.map (· * s.eqRR)⟩ := by
  rw [computePhase2Message, hH, Option.bind_eq_bind, Option.bind_some]
  cases inverse s.eqRR with
  | none =>
    simp only [Option.bind_none, Option.bind_eq_bind]
    exact Option.bind_fun_none _
  | some inv =>
    simp only [Option.bind_some, Option.bind_eq_bind, gruenRound, Option.map_eq_bind, Option.bind_assoc]
    rfl

theorem AtCycles.message (h : bp.WellFormed p cycles) (hbounds : p.RaBounds)
    (hthree : (3 : F) ≠ 0) (hs : AtCycles bp p cycles (n + 1) z s) :
    (bp.Divides z → ∃ q, computeMessage bp p s (cubeSum (bp.summand p cycles) (n + 1) z) = .some q ∧
      q.Is 3 fun x => cubeSum (bp.summand p cycles) n (x :: z)) ∧
    (¬ bp.Divides z → computeMessage bp p s (cubeSum (bp.summand p cycles) (n + 1) z) = .none) := by
  obtain ⟨as, cs, rfl, has, hn, hlow, hscalar, ⟨H, hH, hbind⟩, hround⟩ := hs.bound
  obtain ⟨H', hbind', hshows⟩ := shared_shows h hbounds (a := (coordinates F as).reverse)
    (by rw [List.length_reverse, length_coordinates, has]) hn
  rw [hbind] at hbind'
  cases hbind'
  have hvalues : ∀ g < 2 ^ n, cycleCoeffs bp p H g =
      .some [∑ i ∈ range p.numPolys, constantAt bp p cycles (coordinates F as).reverse n (coordinates F cs).reverse g i,
        ∑ i ∈ range p.numPolys, leadingAt bp p cycles (coordinates F as).reverse n (coordinates F cs).reverse g i] := by
    intro g hg
    have hterm : ∀ i < p.numPolys, (do
        let h0 ← H.getBoundCoeff i (2 * g)
        let h1 ← H.getBoundCoeff i (2 * g + 1)
        let b := h1 - h0
        let rho := bp.gammaPowers i
        .some (h0 * (h0 - rho), b * b)) =
        .some (constantAt bp p cycles (coordinates F as).reverse n (coordinates F cs).reverse g i,
          leadingAt bp p cycles (coordinates F as).reverse n (coordinates F cs).reverse g i) := by
      intro i hi
      have hsize : (tableLow (scaledMle bp p cycles (coordinates F as).reverse i) (n + 1)
          (coordinates F cs).reverse).length = 2 * 2 ^ n := by rw [length_tableLow, pow_succ, Nat.mul_comm]
      rw [hshows.coeff i hi (2 * g) (by omega), hshows.coeff i hi (2 * g + 1) (by omega), getElem?_tableLow_even hg,
        getElem?_tableLow_odd hg]
      rfl
    rw [cycleCoeffs, mapM_range hterm, Option.bind_eq_bind, Option.bind_some, map_tableOf, map_tableOf]
    rfl
  have hmessage : computeMessage bp p s (cubeSum (bp.summand p cycles) (n + 1)
      ((coordinates F cs).reverse ++ (coordinates F as).reverse)) = computePhase2Message bp p s (cubeSum
        (bp.summand p cycles) (n + 1) ((coordinates F cs).reverse ++ (coordinates F as).reverse)) := by
    rw [computeMessage, if_neg (by omega)]
  have hsum := @quadraticSum_cycles F C _ _ bp p cycles n (coordinates F cs).reverse (coordinates F as).reverse
    (by rw [List.length_reverse, length_coordinates]; omega)
  have hdrop : bp.reference.drop (bp.reference.length - ((coordinates F cs).reverse ++
      (coordinates F as).reverse).length - 1) = (coordinates F bp.rCycle).drop n ++ coordinates F bp.rAddress := by
    have hlengths : bp.reference.length - ((coordinates F cs).reverse ++ (coordinates F as).reverse).length - 1 = n := by
      rw [BooleanityParams.reference]
      simp only [List.length_append, List.length_reverse, length_coordinates, h.address, has]
      omega
    rw [hlengths, BooleanityParams.reference, List.drop_append_of_le_length (by rw [length_coordinates]; omega)]
  have hgood : bp.Divides ((coordinates F cs).reverse ++ (coordinates F as).reverse) ↔
      eqMle ((coordinates F bp.rCycle).drop n) (1 :: (coordinates F cs).reverse) ≠ 0 ∧ s.eqRR ≠ 0 := by
    rw [BooleanityParams.Divides, hdrop, ← List.cons_append, eqMle_append (by
      simp only [List.length_drop, length_coordinates, List.length_cons, List.length_reverse]; omega), hscalar,
      mul_ne_zero_iff]
  rw [hgood, hmessage, computePhase2Message_eq hH]
  by_cases hzero : s.eqRR = 0
  · refine ⟨fun hboth => absurd hzero hboth.2, fun _ => ?_⟩
    rw [inverse, if_pos hzero]
    rfl
  · have hclaim : ∀ Q : F → F, (∀ x, eqMle (coordinates F bp.rAddress) (coordinates F as).reverse * Q x =
        cubeSum (bp.summand p cycles) n (x :: ((coordinates F cs).reverse ++ (coordinates F as).reverse))) →
        cubeSum (bp.summand p cycles) (n + 1) ((coordinates F cs).reverse ++ (coordinates F as).reverse) * s.eqRR⁻¹ =
          Q 0 + Q 1 := fun Q hQ => by
      rw [cubeSum_succ, ← hQ, ← hQ, ← hscalar, ← mul_add, mul_comm, ← mul_assoc, inv_mul_cancel₀ hzero, one_mul]
    have hgruen := gruenRound_eq hlow (n := n) (by omega) hthree hvalues (hclaim _ hsum)
    rw [inverse, if_neg hzero, Option.bind_some]
    constructor
    · intro hboth
      obtain ⟨q, hq, his⟩ := hgruen.2 hboth.1
      refine ⟨⟨q.coeffs.map (· * s.eqRR)⟩, by rw [hq]; rfl, by rw [List.length_map, his.length], fun x => ?_⟩
      rw [horner_map_mul, his.value, mul_comm, hscalar, hsum]
    · intro hbad
      rw [hgruen.1 (by_contra fun hne => hbad ⟨hne, hzero⟩)]
      rfl

end Messages

theorem AtCycles.challenge (h : bp.WellFormed p cycles) (hbounds : p.RaBounds)
    (hs : AtCycles bp p cycles (n + 1) z s) (r : C) :
    ∃ s', ingestChallenge bp p s r = .some s' ∧ AtCycles bp p cycles n (Challenge.into r :: z) s' := by
  obtain ⟨as, cs, rfl, has, hn, hlow, hscalar, ⟨H, hH, hbind⟩, hround⟩ := hs.bound
  have hlength : n + (cs ++ [r]).length = bp.rCycle.length := by
    rw [List.length_append, List.length_singleton]
    omega
  obtain ⟨H', hbind', -⟩ := shared_shows h hbounds (a := (coordinates F as).reverse)
    (by rw [List.length_reverse, length_coordinates, has]) hlength
  obtain ⟨D, hD, hlowD⟩ := hlow.bind (by omega) r
  have hconcat : coordinates F (cs ++ [r]) = coordinates F cs ++ [Challenge.into r] := List.map_append
  have hstep : H.bind .lowToHigh (Challenge.into r) = .some H' := by
    rw [← hbind', hconcat, SharedRaPolynomials.bindAll, List.foldlM_append, ← SharedRaPolynomials.bindAll, hbind]
    simp
  refine ⟨{ s with D, H := .some H', round := s.round + 1 }, ?_, ⟨as, cs ++ [r], ?_, has, hlength, hlowD, hscalar,
    ⟨H', rfl, hbind'⟩, ?_⟩, hs.inv⟩
  · rw [ingestChallenge, if_neg (by omega), hD, Option.bind_eq_bind, Option.bind_some, hH]
    simp only
    rw [hstep]
    rfl
  · rw [hconcat, List.reverse_append]
    rfl
  · simp only [List.length_append, List.length_singleton]
    omega

end BooleanityProver

/-! ## The whole sumcheck -/

namespace BooleanityProver

open GruenSplitEqPolynomial (LowAt)

variable {bp : BooleanityParams F C} {p : OneHotParams} {cycles : List CycleWitness} {n : Nat} {z : List F}
  {s : BooleanityProver F C}

/-- The state with the challenges of `z` bound. -/
def At (bp : BooleanityParams F C) (p : OneHotParams) (cycles : List CycleWitness) (n : Nat) (z : List F)
    (s : BooleanityProver F C) : Prop := AtAddresses bp p cycles n z s ∨ AtCycles bp p cycles n z s

/-- The openings are the polynomials' own values. -/
theorem cacheOpenings_eq (h : bp.WellFormed p cycles) (hbounds : p.RaBounds) (hs : At bp p cycles 0 z s) (rs : List C) :
    cacheOpenings p s rs = .some ((rs.take p.logKChunk).reverse, (rs.drop p.logKChunk).reverse,
      tableOf p.numPolys fun i => bp.ra p cycles i z) := by
  rcases hs with hs | hs
  · obtain ⟨cs, -, hn, hlt, -⟩ := hs.bound
    omega
  · obtain ⟨as, cs, rfl, has, hn, -, -, ⟨H, hH, hbind⟩, -⟩ := hs.bound
    obtain ⟨H', hbind', hshows⟩ := shared_shows h hbounds (a := (coordinates F as).reverse)
      (by rw [List.length_reverse, length_coordinates, has]) hn
    rw [hbind] at hbind'
    cases hbind'
    have hclaims : (List.range p.numPolys).mapM (fun i => do
        .some ((← H.finalSumcheckClaim i) * (← s.gammaPowersInv[i]?))) =
        .some (tableOf p.numPolys fun i => bp.ra p cycles i ((coordinates F cs).reverse ++ (coordinates F as).reverse)) := by
      refine mapM_range fun i hi => ?_
      have hlength : (coordinates F cs).reverse.length = bp.rCycle.length := by
        rw [List.length_reverse, length_coordinates]
        omega
      have hvalue := @ra_append F C _ bp p cycles _ (coordinates F as).reverse hlength i
      have hpower : bp.gammaPowers i ≠ 0 := pow_ne_zero i h.gamma
      have hclaim : H.finalSumcheckClaim i = .some (scaledMle bp p cycles (coordinates F as).reverse i
          (coordinates F cs).reverse) := by
        rw [hshows.claim i hi (by rw [length_tableLow, pow_zero]), tableLow_zero]
        rfl
      rw [hclaim, hs.inv, getElem?_tableOf hi, ← hvalue]
      simp only [Option.bind_eq_bind, Option.bind_some]
      rw [mul_right_comm, mul_inv_cancel₀ hpower, one_mul]
    rw [cacheOpenings, hH, Option.bind_eq_bind, Option.bind_some, hclaims]
    rfl

variable [DecidableEq F]

theorem exactWhere (h : bp.WellFormed p cycles) (hbounds : p.RaBounds) (hthree : (3 : F) ≠ 0) :
    (prover bp p : FallibleProver (BooleanityProver F C) F C).ExactWhere (bp.summand p cycles) 3 bp.Divides
      (At bp p cycles) where
  message hs hgood := by
    rcases hs with hs | hs
    · exact (hs.message h hbounds hthree).1 hgood
    · exact (hs.message h hbounds hthree).1 hgood
  panic hs hbad := by
    rcases hs with hs | hs
    · exact (hs.message h hbounds hthree).2 hbad
    · exact (hs.message h hbounds hthree).2 hbad
  challenge hs r := by
    rcases hs with hs | hs
    · exact hs.challenge h r
    · obtain ⟨s', hs', hat⟩ := hs.challenge h hbounds r
      exact ⟨s', hs', .inr hat⟩

theorem start_at (h : bp.WellFormed p cycles) (hbounds : p.RaBounds) {numThreads : Nat} (hthreads : 0 < numThreads) :
    ∃ s, start bp p numThreads cycles = .some s ∧ At bp p cycles (bp.rCycle.length + p.logKChunk) [] s := by
  have hchunk := h.chunk
  have haddress := h.address
  have hrounds := h.rounds
  obtain ⟨B, hB, hlowB⟩ := LowAt.new (F := F) (w := bp.rAddress) (List.length_pos_iff.mp (by omega)) .none
  obtain ⟨D, hD, hlowD⟩ := LowAt.new (F := F) (w := bp.rCycle) (List.length_pos_iff.mp (by omega)) .none
  obtain ⟨m, hm⟩ : ∃ m, 2 ^ p.logKChunk = m + 1 := ⟨2 ^ p.logKChunk - 1, by have := Nat.two_pow_pos p.logKChunk; omega⟩
  have hreset : ExpandingTable.reset (ExpandingTable.new (2 ^ p.logKChunk) .lowToHigh : ExpandingTable F) 1 =
      .some { ExpandingTable.new (2 ^ p.logKChunk) .lowToHigh with values := 1 :: List.replicate m 0, len := 1 } := by
    rw [hm]
    rfl
  have hinv : (List.range p.numPolys).mapM (fun i => inverse (bp.gammaPowers i)) =
      .some (tableOf p.numPolys fun i => (bp.gammaPowers i)⁻¹) :=
    mapM_range fun i _ => if_neg (pow_ne_zero i h.gamma)
  refine ⟨{
    gammaPowersInv := tableOf p.numPolys fun i => (bp.gammaPowers i)⁻¹
    B, D
    G := tableOf p.numPolys fun i => tableOf (2 ^ p.logKChunk) (bp.pushforwardAt p cycles i)
    H := .none
    table := { ExpandingTable.new (2 ^ p.logKChunk) .lowToHigh with values := 1 :: List.replicate m 0, len := 1 }
    eqRR := 0
    raIndices := cycles.map (RaIndices.fromCycle p)
    round := 0 }, ?_, .inl ⟨⟨[], rfl, rfl, ?_, hlowB, rfl⟩, hlowD, rfl, ?_, rfl, rfl, rfl, rfl, rfl⟩⟩
  · rw [start, h.computeAllG_eq hbounds hthreads, hB, hD, hreset, hinv, collectRaIndices_eq p h.trace.le]
    rfl
  · simp only [List.length_nil]
    omega
  · exact ⟨by simp [hm], nofun⟩

/-- **The run**: where no round divides by zero it is the direct sumcheck, elsewhere a panic. -/
theorem run_eq (h : bp.WellFormed p cycles) (hbounds : p.RaBounds) (hthree : (3 : F) ≠ 0) {numThreads : Nat}
    (hthreads : 0 < numThreads) {rs : List C} (hrs : rs.length = bp.rCycle.length + p.logKChunk) :
    ((∀ i < rs.length, bp.Divides (coordinates F (rs.take i)).reverse) →
      ∃ ps, run bp p numThreads cycles (cubeSum (bp.summand p cycles) rs.length []) rs =
          .some (ps, bp.summand p cycles (coordinates F rs).reverse, (rs.take p.logKChunk).reverse,
            (rs.drop p.logKChunk).reverse, tableOf p.numPolys fun i => bp.ra p cycles i (coordinates F rs).reverse) ∧
        Direct (bp.summand p cycles) 3 [] rs ps) ∧
    (∀ i < rs.length, ¬ bp.Divides (coordinates F (rs.take i)).reverse →
      run bp p numThreads cycles (cubeSum (bp.summand p cycles) rs.length []) rs = .none) := by
  obtain ⟨s, hs, hat⟩ := start_at h hbounds hthreads
  rw [← hrs] at hat
  have hrounds := (exactWhere h hbounds hthree).rounds rs hat
  simp only [List.append_nil] at hrounds
  rw [run, hs, Option.bind_eq_bind, Option.bind_some]
  refine ⟨fun hall => ?_, fun i hi hbad => ?_⟩
  · obtain ⟨ps, s', hrun, hdirect, hlast⟩ := hrounds.1 hall
    refine ⟨ps, ?_, hdirect⟩
    rw [hrun, Option.bind_eq_bind, Option.bind_some]
    simp only
    rw [cacheOpenings_eq h hbounds hlast]
    rfl
  · rw [hrounds.2 i hi hbad]
    rfl

end BooleanityProver

namespace BooleanityParams

variable {bp : BooleanityParams F C} {p : OneHotParams} {cycles : List CycleWitness}

theorem eqMle_reverse {x y : List F} (h : x.length = y.length) : eqMle x.reverse y.reverse = eqMle x y := by
  rw [eqMle, eqMle, ← List.reverse_zipWith h, List.prod_reverse]

/-- The polynomials are zero or one at the Boolean points. -/
theorem WellFormed.sum_zero (h : bp.WellFormed p cycles) (hbounds : p.RaBounds) :
    cubeSum (bp.summand p cycles) (bp.rCycle.length + p.logKChunk) [] = 0 := by
  rw [cubeSum_add, cubeSum]
  refine sum_eq_zero fun a ha => ?_
  rw [List.append_nil, sum_cycles h hbounds]
  refine mul_eq_zero_of_right _ (sum_eq_zero fun i _ => mul_eq_zero_of_right _ (sum_eq_zero fun k hk => ?_))
  have hentry : eqAt (bitsPoint p.logKChunk a : List F) k = if a = k then 1 else 0 := by
    rw [eqAt_eq_eqMle _ (by rw [length_bitsPoint]; exact mem_range.mp hk), length_bitsPoint,
      eqMle_bitsPoint (mem_range.mp ha) (mem_range.mp hk)]
  rw [hentry]
  split_ifs
  · ring
  · ring

theorem expectedOutputClaim_eq (h : bp.WellFormed p cycles) {rs : List C}
    (hrs : rs.length = bp.rCycle.length + p.logKChunk) :
    bp.expectedOutputClaim p (fun i => bp.ra p cycles i (coordinates F rs).reverse) rs =
      bp.summand p cycles (coordinates F rs).reverse := by
  have hreference : (coordinates F (bp.rAddress.reverse ++ bp.rCycle.reverse)) = bp.reference.reverse := by
    rw [reference, coordinates, coordinates, coordinates, List.map_append, List.reverse_append, List.map_reverse,
      List.map_reverse]
  have hlength : bp.reference.length = (coordinates F rs).length := by
    rw [reference, List.length_append, length_coordinates, length_coordinates, length_coordinates, h.address, hrs]
  have hreverse := eqMle_reverse (x := bp.reference) (y := (coordinates F rs).reverse)
    (by rw [List.length_reverse, hlength])
  rw [List.reverse_reverse, eqMle_comm] at hreverse
  rw [expectedOutputClaim, EqPolynomial.mle_eq, hreference, hreverse, summand]
  exact congrArg (_ * ·) (congrArg List.sum (List.map_congr_left fun i _ => mul_comm _ _))

end BooleanityParams

/-! ## When the prover is exact -/

/-- The prover and the verifier are those of the direct sumcheck. -/
structure BooleanityExact [DecidableEq F] (bp : BooleanityParams F C) (p : OneHotParams) (numThreads : Nat)
    (cycles : List CycleWitness) (rs : List C) : Prop where
  input : cubeSum (bp.summand p cycles) rs.length [] = 0
  run : ∃ ps, BooleanityProver.run bp p numThreads cycles 0 rs =
      .some (ps, bp.summand p cycles (coordinates F rs).reverse, (rs.take p.logKChunk).reverse,
        (rs.drop p.logKChunk).reverse, tableOf p.numPolys fun i => bp.ra p cycles i (coordinates F rs).reverse) ∧
    Direct (bp.summand p cycles) 3 [] rs ps
  output : bp.expectedOutputClaim p (fun i => bp.ra p cycles i (coordinates F rs).reverse) rs =
    bp.summand p cycles (coordinates F rs).reverse

theorem booleanityExact_iff_divides [DecidableEq F] {bp : BooleanityParams F C} {p : OneHotParams}
    {cycles : List CycleWitness} (h : bp.WellFormed p cycles) (hthree : (3 : F) ≠ 0) {numThreads : Nat}
    (hthreads : 0 < numThreads) {rs : List C} (hrs : rs.length = bp.rCycle.length + p.logKChunk) :
    BooleanityExact bp p numThreads cycles rs ↔
      p.RaBounds ∧ ∀ i < rs.length, bp.Divides (coordinates F (rs.take i)).reverse := by
  constructor
  · intro hexact
    obtain ⟨ps, hrun, -⟩ := hexact.run
    have hbounds : p.RaBounds := by
      by_contra hout
      rw [BooleanityProver.run, BooleanityProver.start, computeAllG, if_neg hout] at hrun
      cases hrun
    refine ⟨hbounds, fun i hi => by_contra fun hbad => ?_⟩
    have hnone := (BooleanityProver.run_eq h hbounds hthree hthreads hrs).2 i hi hbad
    rw [hexact.input, hrun] at hnone
    cases hnone
  · rintro ⟨hbounds, hall⟩
    have hzero : cubeSum (bp.summand p cycles) rs.length [] = 0 := hrs ▸ h.sum_zero hbounds
    have hrun := (BooleanityProver.run_eq h hbounds hthree hthreads hrs).1 hall
    rw [hzero] at hrun
    exact ⟨hzero, hrun, BooleanityParams.expectedOutputClaim_eq h hrs⟩

/-- **The booleanity sumcheck is exact just when** the chunks fit into the indices and no round divides
by zero: in each the reference's coordinate is not zero, nor is its equality polynomial at the
challenges so far. -/
theorem booleanity_exact_iff {C : Type} [Challenge C Fr] {bp : BooleanityParams Fr C} {p : OneHotParams}
    {cycles : List CycleWitness} (h : bp.WellFormed p cycles) {numThreads : Nat} (hthreads : 0 < numThreads)
    {rs : List C} (hrs : rs.length = bp.rCycle.length + p.logKChunk) :
    BooleanityExact bp p numThreads cycles rs ↔
      p.RaBounds ∧ ∀ i < rs.length, bp.Divides (coordinates Fr (rs.take i)).reverse :=
  booleanityExact_iff_divides h (by decide) hthreads hrs

/-- The sumcheck at a point of ones. -/
def booleanityOnes : BooleanityParams Fr Fr := ⟨1, [1, 1, 1, 1], [1, 1, 1]⟩

/-- Eight cycles, one of them with an access, at chunks of four bits. -/
def booleanityCycles : List CycleWitness := ⟨0, 0, 5, 0, .some 1⟩ :: List.replicate 7 .noOp

theorem booleanityOnes_wellFormed : booleanityOnes.WellFormed ⟨4, 16, 5, 6⟩ booleanityCycles :=
  ⟨.inl rfl, rfl, rfl, by decide, one_ne_zero⟩

theorem booleanity_exact_ones :
    @BooleanityExact Fr Fr _ ⟨id⟩ _ booleanityOnes ⟨4, 16, 5, 6⟩ 2 booleanityCycles (List.replicate 7 1) :=
  (@booleanity_exact_iff Fr ⟨id⟩ booleanityOnes ⟨4, 16, 5, 6⟩ booleanityCycles booleanityOnes_wellFormed 2
    (by decide) (List.replicate 7 1) rfl).mpr ⟨by decide, by
      unfold BooleanityParams.Divides
      decide⟩

/-- A first challenge of zero, against a reference of ones, and the second round divides by zero. -/
theorem booleanity_zero_challenge :
    booleanityOnes.WellFormed ⟨4, 16, 5, 6⟩ booleanityCycles ∧
      @BooleanityProver.run Fr Fr _ ⟨id⟩ _ booleanityOnes ⟨4, 16, 5, 6⟩ 2 booleanityCycles 0 (List.replicate 7 0) =
        .none ∧
      ¬ @BooleanityExact Fr Fr _ ⟨id⟩ _ booleanityOnes ⟨4, 16, 5, 6⟩ 2 booleanityCycles (List.replicate 7 0) := by
  let _ : Challenge Fr Fr := ⟨id⟩
  have hbounds : OneHotParams.RaBounds ⟨4, 16, 5, 6⟩ := by decide
  have hbad : ¬ booleanityOnes.Divides (coordinates Fr ((List.replicate 7 (0 : Fr)).take 1)).reverse := by
    unfold BooleanityParams.Divides
    decide
  have hnone := (BooleanityProver.run_eq booleanityOnes_wellFormed hbounds (by decide) (show 0 < 2 by decide)
    (show (List.replicate 7 (0 : Fr)).length = booleanityOnes.rCycle.length + 4 from rfl)).2 1 (by decide) hbad
  have hzero : cubeSum (booleanityOnes.summand ⟨4, 16, 5, 6⟩ booleanityCycles) (List.replicate 7 (0 : Fr)).length [] = 0 :=
    booleanityOnes_wellFormed.sum_zero hbounds
  rw [hzero] at hnone
  refine ⟨booleanityOnes_wellFormed, hnone, fun hexact => ?_⟩
  obtain ⟨ps, hrun, -⟩ := hexact.run
  exact absurd (hnone.symm.trans hrun) nofun

end LightningJolt
