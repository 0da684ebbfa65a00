/-
The reduction of stage 7 from its tables (`jolt-core/src/zkvm/claim_reductions/hamming_weight.rs`),
and both reductions of claims as direct sumchecks.
-/
import LightningJolt.IncReduction
import LightningJolt.RaPushforward
import LightningJolt.ScalarField

namespace LightningJolt

open Finset

variable {F C : Type} [JoltField F] [Challenge C F]

/-! ## The prover of stage 7 -/

/-- `HammingWeightClaimReductionProver`. -/
structure HammingProver (F : Type) where
  G : List (List F)
  eqBool : List F
  eqVirt : List (List F)

namespace HammingProver

variable (hp : HammingWeightParams F C)

/-- `initialize`. -/
def start (numThreads : Nat) (p : OneHotParams) (cycles : List CycleWitness) : Option (HammingProver F) := do
  .some {
    G := ← computeAllG numThreads p cycles hp.rCycle
    eqBool := EqPolynomial.evals hp.rAddrBool
    eqVirt := hp.claims.map fun c => EqPolynomial.evals c.rAddrVirt }

omit [Challenge C F] in
/-- The factor of the `i`-th polynomial, of the values of the equality polynomials. -/
def weightOf (i : Nat) (eqB eqV : F) : F :=
  hp.gamma ^ (3 * i) + hp.gamma ^ (3 * i + 1) * eqB + hp.gamma ^ (3 * i + 2) * eqV

omit [Challenge C F] in
/-- The values at 0 and 2 that an index adds to the message. -/
def evalsAt (s : HammingProver F) (index : Nat) : Option (F × F) := do
  let eqB ← evalsArray s.eqBool index
  let each ← (s.G.zip s.eqVirt).zipIdx.mapM fun q => do
    let g ← evalsArray q.1.1 index
    let eqV ← evalsArray q.1.2 index
    .some (g.1 * weightOf hp q.2 eqB.1 eqV.1, g.2 * weightOf hp q.2 eqB.2 eqV.2)
  .some ((each.map (·.1)).sum, (each.map (·.2)).sum)

omit [Challenge C F] in
/-- `compute_message`. -/
def computeMessage [DecidableEq F] (s : HammingProver F) (previousClaim : F) : Option (UniPoly F) := do
  let G ← s.G[0]?
  let (e0, e2) ← sumIndices (G.length / 2) (evalsAt hp s)
  UniPoly.fromEvalsAndHint previousClaim [e0, e2]

/-- `ingest_challenge`. -/
def ingestChallenge (s : HammingProver F) (r : C) : HammingProver F where
  G := s.G.map fun g => DensePolynomial.bind .lowToHigh g (Challenge.into r)
  eqBool := DensePolynomial.bind .lowToHigh s.eqBool (Challenge.into r)
  eqVirt := s.eqVirt.map fun eq => DensePolynomial.bind .lowToHigh eq (Challenge.into r)

/-- The prover of the sumcheck. -/
def prover [DecidableEq F] : FallibleProver (HammingProver F) F C where
  computeMessage := computeMessage hp
  ingestChallenge s r := .some (s.ingestChallenge r)

/-- `cache_openings`: a claim for each polynomial. -/
def cacheOpenings (s : HammingProver F) : Option (List F) := s.G.mapM DensePolynomial.finalSumcheckClaim

/-- The whole sumcheck: the messages, the last claim and the claims cached. -/
def run [DecidableEq F] (numThreads : Nat) (p : OneHotParams) (cycles : List CycleWitness) (claim : F) (rs : List C) :
    Option (List (UniPoly F) × F × List F) := do
  let (ps, s, last) ← (prover hp).rounds (← start hp numThreads p cycles) claim rs
  .some (ps, last, ← s.cacheOpenings)

end HammingProver

/-! ## Its direct sumcheck -/

/-- The multilinear extension of a one-hot polynomial. -/
def oneHotMle (p : OneHotParams) (cycles : List CycleWitness) (poly : CommittedPolynomial) (address cycle : List F) :
    F :=
  ∑ k ∈ range (2 ^ p.logKChunk), eqMle address (bitsPoint p.logKChunk k) *
    ∑ j ∈ range cycles.length, if (cycles[j]?).bind (p.chunkIndex · poly) = .some k then eqAt cycle j else 0

section Direct

variable (p : OneHotParams) (cycles : List CycleWitness) (hp : HammingWeightParams F C)

/-- A one-hot polynomial at the cycle point, of the address. -/
def pushforwardMle (poly : CommittedPolynomial) (address : List F) : F :=
  oneHotMle p cycles poly address (intoPoint hp.rCycle)

/-- What the direct sumcheck sums. -/
def hammingSummand (address : List F) : F :=
  (hp.claims.zipIdx.map fun q => pushforwardMle p cycles hp q.1.poly address * hp.weight q.1 q.2 address).sum

/-- The points are of the configuration, one claim for each polynomial. -/
structure HammingWeightParams.WellFormed : Prop where
  chunk : p.logKChunk = 4 ∨ p.logKChunk = 8
  bounds : p.RaBounds
  trace : cycles.length = 2 ^ hp.rCycle.length
  polys : hp.claims.map RaClaims.poly = p.polynomialTypes
  bool : hp.rAddrBool.length = p.logKChunk
  virt : ∀ c ∈ hp.claims, c.rAddrVirt.length = p.logKChunk

/-- The tables with the challenges of `z` bound and `n` variables left. -/
structure HammingProver.At (n : Nat) (z : List F) (s : HammingProver F) : Prop where
  G : s.G = hp.claims.map fun c => tableLow (pushforwardMle p cycles hp c.poly) n z
  eqBool : s.eqBool = tableLow (fun x => eqMle x (intoPoint hp.rAddrBool)) n z
  eqVirt : s.eqVirt = hp.claims.map fun c => tableLow (fun x => eqMle x (intoPoint c.rAddrVirt)) n z

end Direct

section Steps

variable {p : OneHotParams} {cycles : List CycleWitness} {hp : HammingWeightParams F C} {n : Nat} {z : List F}

theorem affine_pushforwardMle (poly : CommittedPolynomial) : Affine (pushforwardMle p cycles hp poly) :=
  affine_mleOf p.logKChunk _

theorem pushforwardMle_eq (poly : CommittedPolynomial) : tableOf (2 ^ p.logKChunk)
    (pushforwardOf p cycles hp.rCycle poly : Nat → F) = tableLow (pushforwardMle p cycles hp poly) p.logKChunk [] := by
  refine tableOf_congr fun k hk => ?_
  rw [List.append_nil]
  exact (mleOf_bitsPoint (pushforwardOf p cycles hp.rCycle poly : Nat → F) hk).symm

omit [Challenge C F] in
theorem affine_const (k : F) : Affine fun _ : List F => k := fun _ r _ => by simp [line]

theorem affine_weight (c : RaClaims F C) (i : Nat) : Affine (hp.weight c i) :=
  ((affine_const _).add ((affine_eqMle _).const_mul _)).add ((affine_eqMle _).const_mul _)

theorem quadratic_hammingSummand : Quadratic (hammingSummand p cycles hp) := by
  have hproducts : hammingSummand p cycles hp = productsAt (hp.claims.zipIdx.map fun q =>
      (1, pushforwardMle p cycles hp q.1.poly, hp.weight q.1 q.2)) := by
    funext x
    rw [hammingSummand, productsAt, List.map_map]
    simp only [Function.comp_def, one_mul]
  rw [hproducts]
  refine quadratic_productsAt fun t ht => ?_
  obtain ⟨q, -, rfl⟩ := List.mem_map.mp ht
  exact ⟨affine_pushforwardMle _, affine_weight _ _⟩

namespace HammingProver

variable {s : HammingProver F}

theorem start_at (h : hp.WellFormed p cycles) {numThreads : Nat} (hthreads : 0 < numThreads) :
    ∃ s, start hp numThreads p cycles = .some s ∧ s.At p cycles hp p.logKChunk [] := by
  refine ⟨⟨_, _, _⟩, ?_, ⟨rfl, rfl, rfl⟩⟩
  rw [start, computeAllG_eq h.bounds hthreads h.trace.le, ← h.polys, List.map_map, Option.bind_eq_bind, Option.bind_some]
  refine congrArg some ?_
  congr 1
  · exact List.map_congr_left fun c _ => pushforwardMle_eq c.poly
  · rw [evals_tableLow, h.bool]
    rfl
  · exact List.map_congr_left fun c hc => by rw [evals_tableLow, h.virt c hc]

theorem At.evalsAt (hs : s.At p cycles hp (n + 1) z) {b : Nat} (hb : b < 2 ^ n) : evalsAt hp s b =
    .some (hammingSummand p cycles hp (bitsPoint n b ++ 0 :: z), hammingSummand p cycles hp (bitsPoint n b ++ 2 :: z)) := by
  have hzip : (s.G.zip s.eqVirt).zipIdx = hp.claims.zipIdx.map fun q =>
      ((tableLow (pushforwardMle p cycles hp q.1.poly) (n + 1) z,
        tableLow (fun x => eqMle x (intoPoint q.1.rAddrVirt)) (n + 1) z), q.2) := by
    rw [hs.G, hs.eqVirt, List.zip_map', List.zipIdx_map]
    rfl
  have heach : (hp.claims.zipIdx.map fun q => ((tableLow (pushforwardMle p cycles hp q.1.poly) (n + 1) z,
        tableLow (fun x => eqMle x (intoPoint q.1.rAddrVirt)) (n + 1) z), q.2)).mapM (fun q => do
      let g ← evalsArray q.1.1 b
      let eqV ← evalsArray q.1.2 b
      .some (g.1 * weightOf hp q.2 (eqMle (bitsPoint n b ++ 0 :: z) (intoPoint hp.rAddrBool)) eqV.1,
        g.2 * weightOf hp q.2 (eqMle (bitsPoint n b ++ 2 :: z) (intoPoint hp.rAddrBool)) eqV.2)) =
      .some (hp.claims.zipIdx.map fun q =>
        (pushforwardMle p cycles hp q.1.poly (bitsPoint n b ++ 0 :: z) * hp.weight q.1 q.2 (bitsPoint n b ++ 0 :: z),
          pushforwardMle p cycles hp q.1.poly (bitsPoint n b ++ 2 :: z) * hp.weight q.1 q.2 (bitsPoint n b ++ 2 :: z))) := by
    rw [List.mapM_map]
    refine mapM_of_some fun q _ => ?_
    simp only [Function.comp_apply, evalsArray_tableLow (affine_pushforwardMle q.1.poly) z hb,
      evalsArray_tableLow (affine_eqMle (intoPoint q.1.rAddrVirt)) z hb, Option.bind_eq_bind, Option.bind_some]
    rfl
  simp only [Option.bind_eq_bind] at heach
  rw [HammingProver.evalsAt, hs.eqBool, evalsArray_tableLow (affine_eqMle _) z hb, hzip]
  simp only [Option.bind_eq_bind, Option.bind_some, heach, List.map_map, hammingSummand]
  rfl

omit [JoltField F] [Challenge C F] in
theorem claims_ne_nil (h : hp.WellFormed p cycles) : ∃ c cs, hp.claims = c :: cs := by
  cases hclaims : hp.claims with
  | cons c cs => exact ⟨c, cs, rfl⟩
  | nil =>
    have hpolys := h.polys
    have hd : 0 < p.instructionD := by
      rcases h.chunk with hk | hk <;> simp [OneHotParams.instructionD, hk, lookupsLogK, divCeil]
    rw [hclaims, List.map_nil, OneHotParams.polynomialTypes] at hpolys
    have hlen := congrArg List.length hpolys
    simp only [List.length_nil, List.length_append, List.length_map, List.length_range] at hlen
    omega

theorem exact [DecidableEq F] (h : hp.WellFormed p cycles) :
    (prover hp : FallibleProver (HammingProver F) F C).Exact (hammingSummand p cycles hp) 2 (At p cycles hp) where
  message {n z s} hs := by
    obtain ⟨c, cs, hclaims⟩ := claims_ne_nil h
    have hhead : s.G[0]? = .some (tableLow (pushforwardMle p cycles hp c.poly) (n + 1) z) := by
      rw [hs.G, hclaims]
      rfl
    obtain ⟨q, hq, his⟩ := fromEvalsAndHint_quadratic
      ((@quadratic_hammingSummand F C _ _ p cycles hp).cubeSum n z)
      (cubeSum_succ (hammingSummand p cycles hp) n z)
    refine ⟨q, ?_, his⟩
    show computeMessage hp s _ = _
    rw [computeMessage, hhead, Option.bind_eq_bind, Option.bind_some, half_tableLow,
      sumIndices_eq fun b hb => hs.evalsAt hb]
    exact hq
  challenge {n z s} hs r := by
    refine ⟨_, rfl, ⟨?_, ?_, ?_⟩⟩
    · rw [ingestChallenge, hs.G, List.map_map]
      exact List.map_congr_left fun c _ => bind_tableLow (affine_pushforwardMle c.poly) n z _
    · rw [ingestChallenge, hs.eqBool, bind_tableLow (affine_eqMle _)]
    · rw [ingestChallenge, hs.eqVirt, List.map_map]
      exact List.map_congr_left fun c _ => bind_tableLow (affine_eqMle _) n z _

/-- The sumcheck of stage 7 is the direct one in every round, with the claims at its point. -/
theorem run_eq [DecidableEq F] (h : hp.WellFormed p cycles) {numThreads : Nat} (hthreads : 0 < numThreads)
    {rs : List C} (hrs : rs.length = p.logKChunk) :
    ∃ ps, run hp numThreads p cycles (cubeSum (hammingSummand p cycles hp) p.logKChunk []) rs =
        .some (ps, hammingSummand p cycles hp (intoPoint rs.reverse),
          hp.claims.map fun c => oneHotMle p cycles c.poly (intoPoint rs.reverse) (intoPoint hp.rCycle)) ∧
      Direct (hammingSummand p cycles hp) 2 [] rs ps := by
  obtain ⟨s0, hstart, hat⟩ := start_at h hthreads
  obtain ⟨ps, s, hrounds, hdirect, hlast⟩ := (exact h).rounds rs (z := []) (s := s0) (by rwa [hrs])
  rw [List.append_nil, ← List.map_reverse, ← intoPoint] at hrounds hlast
  have hopenings : s.cacheOpenings =
      .some (hp.claims.map fun c => oneHotMle p cycles c.poly (intoPoint rs.reverse) (intoPoint hp.rCycle)) := by
    rw [cacheOpenings, hlast.G, List.mapM_map]
    refine mapM_of_some fun c _ => ?_
    simp only [Function.comp_apply, tableLow_zero, DensePolynomial.finalSumcheckClaim, List.length_singleton, if_true,
      List.getElem?_cons_zero]
    rfl
  refine ⟨ps, ?_, hdirect⟩
  rw [hrs] at hrounds
  rw [run, hstart, Option.bind_eq_bind, Option.bind_some, hrounds, Option.bind_eq_bind, Option.bind_some]
  simp only [hopenings]
  rfl

end HammingProver

/-! ## The claims it starts with -/

/-- The multilinear extension of the memory's Hamming weight. -/
def ramHammingMle (cycles : List CycleWitness) (cycle : List F) : F :=
  ∑ j ∈ range cycles.length, if ((cycles[j]?).bind CycleWitness.ramAddress).isSome then eqAt cycle j else 0

/-- The claims of the earlier stages are of the one-hot polynomials. -/
structure HammingWeightParams.TrueClaims (p : OneHotParams) (cycles : List CycleWitness)
    (hp : HammingWeightParams F C) : Prop where
  hw : ∀ c ∈ hp.claims, c.claimHw = hwClaim (ramHammingMle cycles (intoPoint hp.rCycle)) c.poly
  bool : ∀ c ∈ hp.claims, c.claimBool = oneHotMle p cycles c.poly (intoPoint hp.rAddrBool) (intoPoint hp.rCycle)
  virt : ∀ c ∈ hp.claims, c.claimVirt = oneHotMle p cycles c.poly (intoPoint c.rAddrVirt) (intoPoint hp.rCycle)

/-- Over all addresses a cycle counts once where it has one. -/
theorem sum_pushforwardMle (poly : CommittedPolynomial) : cubeSum (pushforwardMle p cycles hp poly) p.logKChunk [] =
    ∑ j ∈ range cycles.length, if ((cycles[j]?).bind (p.chunkIndex · poly)).isSome then
      eqAt (intoPoint hp.rCycle) j else 0 := by
  have hvalue : ∀ k ∈ range (2 ^ p.logKChunk), pushforwardMle p cycles hp poly (bitsPoint p.logKChunk k ++ []) =
      pushforwardOf p cycles hp.rCycle poly k := fun k hk => by
    rw [List.append_nil]
    exact mleOf_bitsPoint (pushforwardOf p cycles hp.rCycle poly : Nat → F) (mem_range.mp hk)
  rw [cubeSum, sum_congr rfl hvalue]
  unfold pushforwardOf
  rw [sum_comm]
  refine sum_congr rfl fun j _ => ?_
  cases hindex : (cycles[j]?).bind (p.chunkIndex · poly) with
  | none => simp
  | some k =>
    obtain ⟨c, -, hc⟩ := Option.bind_eq_some_iff.mp hindex
    simp only [Option.some.injEq, Option.isSome_some, if_true]
    rw [sum_ite_eq, if_pos (mem_range.mpr (p.chunkIndex_lt hc))]
    rfl

theorem hwClaim_eq (h : hp.WellFormed p cycles) {poly : CommittedPolynomial} (hpoly : poly ∈ p.polynomialTypes) :
    HammingWeightParams.hwClaim (ramHammingMle cycles (intoPoint hp.rCycle)) poly =
      cubeSum (pushforwardMle p cycles hp poly) p.logKChunk [] := by
  have hone (hsome : ∀ c, (p.chunkIndex c poly).isSome) :
      cubeSum (pushforwardMle p cycles hp poly) p.logKChunk [] = 1 := by
    have hsum := sum_eqAt (intoPoint hp.rCycle : List F)
    rw [length_intoPoint, ← h.trace] at hsum
    rw [sum_pushforwardMle, ← hsum]
    refine Finset.sum_congr rfl fun j hj => if_pos ?_
    rw [List.getElem?_eq_getElem (mem_range.mp hj), Option.bind_some]
    exact hsome _
  rcases OneHotParams.mem_polynomialTypes hpoly with ⟨i, -, rfl⟩ | ⟨i, -, rfl⟩ | ⟨i, -, rfl⟩
  · exact (hone fun c => rfl).symm
  · exact (hone fun c => rfl).symm
  · rw [sum_pushforwardMle, HammingWeightParams.hwClaim, ramHammingMle]
    refine sum_congr rfl fun j hj => ?_
    rw [List.getElem?_eq_getElem (mem_range.mp hj), Option.bind_some, Option.bind_some, OneHotParams.chunkIndex,
      Option.isSome_map]

theorem HammingWeightParams.inputClaim_direct (h : hp.WellFormed p cycles) (htrue : hp.TrueClaims p cycles) :
    hp.inputClaim = cubeSum (hammingSummand p cycles hp) p.logKChunk [] := by
  simp only [cubeSum, List.append_nil, hammingSummand]
  rw [sum_map_sum, inputClaim]
  congr 1
  refine List.map_congr_left fun q hq => ?_
  obtain ⟨c, i⟩ := q
  have hc := List.fst_mem_of_mem_zipIdx hq
  have hpoly : c.poly ∈ p.polynomialTypes := h.polys ▸ List.mem_map_of_mem hc
  have hbool := (@affine_pushforwardMle F C _ _ p cycles hp c.poly).sum_eqMle []
    (intoPoint hp.rAddrBool)
  have hvirt := (@affine_pushforwardMle F C _ _ p cycles hp c.poly).sum_eqMle []
    (intoPoint c.rAddrVirt)
  have hhw := hwClaim_eq h hpoly
  rw [length_intoPoint, h.bool] at hbool
  rw [length_intoPoint, h.virt c hc] at hvirt
  simp only [List.nil_append] at hbool hvirt
  simp only [cubeSum, List.append_nil] at hhw
  have hsplit : ∀ k ∈ range (2 ^ p.logKChunk), pushforwardMle p cycles hp c.poly (bitsPoint p.logKChunk k) *
      hp.weight c i (bitsPoint p.logKChunk k) =
        hp.gamma ^ (3 * i) * pushforwardMle p cycles hp c.poly (bitsPoint p.logKChunk k) +
        hp.gamma ^ (3 * i + 1) * (eqMle (intoPoint hp.rAddrBool) (bitsPoint p.logKChunk k) *
          pushforwardMle p cycles hp c.poly (bitsPoint p.logKChunk k)) +
        hp.gamma ^ (3 * i + 2) * (eqMle (intoPoint c.rAddrVirt) (bitsPoint p.logKChunk k) *
          pushforwardMle p cycles hp c.poly (bitsPoint p.logKChunk k)) := fun k _ => by
    rw [HammingWeightParams.weight, eqMle_comm (bitsPoint _ _), eqMle_comm (bitsPoint _ _)]
    ring
  rw [sum_congr rfl hsplit, sum_add_distrib, sum_add_distrib, ← mul_sum, ← mul_sum, ← mul_sum, hbool, hvirt, ← hhw]
  simp only [htrue.hw c hc, htrue.bool c hc, htrue.virt c hc]
  rfl

end Steps

/-! ## Both reductions -/

/-- The reduction of the increments is the direct sumcheck: where it starts, its rounds and its
claims, what the verifier expects, and when the phase changes. -/
structure IncReductionExact [DecidableEq F] (p : IncClaimReductionParams F C) (cycles : List CycleWitness) : Prop where
  input : ∀ claim, p.TrueClaims cycles claim →
    p.inputClaim claim = .some (cubeSum (p.summand cycles) p.nCycleVars [])
  run : ∀ rs : List C, rs.length = p.nCycleVars →
    ∃ ps, IncPhase.run p cycles (cubeSum (p.summand cycles) p.nCycleVars []) rs =
        .some (ps, p.summand cycles (intoPoint rs.reverse), incMle p.nCycleVars cycles .RamInc (intoPoint rs.reverse),
          incMle p.nCycleVars cycles .RdInc (intoPoint rs.reverse)) ∧
      Direct (p.summand cycles) 2 [] rs ps
  output : ∀ rs : List C, p.expectedOutputClaim (incMle p.nCycleVars cycles .RamInc (intoPoint rs.reverse))
    (incMle p.nCycleVars cycles .RdInc (intoPoint rs.reverse)) rs = p.summand cycles (intoPoint rs.reverse)
  phase : ∀ rs : List C, rs.length ≤ p.nCycleVars →
    ∃ s, (IncPhase1.start p cycles).bind (fun s => (IncPhase.prover p cycles).after (.phase1 s) rs) = .some s ∧
      ((∃ s1, s = .phase1 s1) ↔ rs.length < p.nCycleVars / 2)

/-- The reduction of stage 7 is the direct sumcheck. -/
structure HammingReductionExact [DecidableEq F] (numThreads : Nat) (p : OneHotParams) (cycles : List CycleWitness)
    (hp : HammingWeightParams F C) : Prop where
  input : hp.TrueClaims p cycles → hp.inputClaim = cubeSum (hammingSummand p cycles hp) p.logKChunk []
  run : ∀ rs : List C, rs.length = p.logKChunk →
    ∃ ps, HammingProver.run hp numThreads p cycles (cubeSum (hammingSummand p cycles hp) p.logKChunk []) rs =
        .some (ps, hammingSummand p cycles hp (intoPoint rs.reverse),
          hp.claims.map fun c => oneHotMle p cycles c.poly (intoPoint rs.reverse) (intoPoint hp.rCycle)) ∧
      Direct (hammingSummand p cycles hp) 2 [] rs ps
  output : ∀ rs : List C, hp.expectedOutputClaim (fun poly => oneHotMle p cycles poly (intoPoint rs.reverse)
    (intoPoint hp.rCycle)) rs = hammingSummand p cycles hp (intoPoint rs.reverse)

/-- **The reductions of claims are direct sumchecks**, that of the increments for every trace of four
cycles or more, that of stage 7 for every configuration within the arrays' bounds. -/
theorem claim_reductions_exact [DecidableEq F] {ip : IncClaimReductionParams F C} {cycles : List CycleWitness}
    (hinc : ip.WellFormed cycles) (hvars : 2 ≤ ip.nCycleVars) {p : OneHotParams} {hp : HammingWeightParams F C}
    (hham : hp.WellFormed p cycles) {numThreads : Nat} (hthreads : 0 < numThreads) :
    IncReductionExact ip cycles ∧ HammingReductionExact numThreads p cycles hp where
  left := {
    input := fun _ htrue => IncClaimReductionParams.inputClaim_eq hinc htrue
    run := fun _ hrs => IncPhase.run_eq hinc hvars hrs
    output := IncClaimReductionParams.expectedOutputClaim_eq
    phase := fun _ hrs => IncPhase.phase_iff hinc hvars hrs }
  right := {
    input := HammingWeightParams.inputClaim_direct hham
    run := fun _ hrs => HammingProver.run_eq hham hthreads hrs
    output := fun _ => rfl }

/-- A lookup, a store, a load and the cycle that pads them. -/
def fourCycles : List CycleWitness :=
  [⟨5, 0, 77, 19, .none⟩, ⟨0, -3, 2 ^ 100 + 9, 20, .some 33⟩, ⟨-2, 0, 1234, 21, .some 62⟩, .noOp]

/-- A reduction of the increments over them. -/
def fourCyclesInc : IncClaimReductionParams Fr Fr := ⟨3, 2, [4, 5], [6, 2], [3, 4], [5, 6]⟩

/-- A reduction of stage 7 over them, from the true claims. -/
def fourCyclesHamming : HammingWeightParams Fr Fr where
  gamma := 3
  rCycle := [5, 4]
  rAddrBool := [2, 3, 4, 6]
  claims := (OneHotParams.polynomialTypes ⟨4, 16, 5, 6⟩).map fun poly => {
    poly
    claimHw := HammingWeightParams.hwClaim (ramHammingMle fourCycles [5, 4]) poly
    claimBool := oneHotMle ⟨4, 16, 5, 6⟩ fourCycles poly [2, 3, 4, 6] [5, 4]
    claimVirt := oneHotMle ⟨4, 16, 5, 6⟩ fourCycles poly [6, 5, 3, 2] [5, 4]
    rAddrVirt := [6, 5, 3, 2] }

theorem claim_reductions_exact_four :
    @IncReductionExact Fr Fr _ ⟨id⟩ _ fourCyclesInc fourCycles ∧
      @HammingReductionExact Fr Fr _ ⟨id⟩ _ 3 ⟨4, 16, 5, 6⟩ fourCycles fourCyclesHamming ∧
      @HammingWeightParams.TrueClaims Fr Fr _ ⟨id⟩ ⟨4, 16, 5, 6⟩ fourCycles fourCyclesHamming := by
  have hpoints : ∀ c ∈ fourCyclesInc.claims, c.2.2.length = 2 := by
    simp [IncClaimReductionParams.claims, fourCyclesInc]
  have hpolys : fourCyclesHamming.claims.map RaClaims.poly = OneHotParams.polynomialTypes ⟨4, 16, 5, 6⟩ := by
    rw [fourCyclesHamming, List.map_map]
    exact List.map_id _
  have hvirt : ∀ c ∈ fourCyclesHamming.claims, c.rAddrVirt.length = 4 := by
    simp [fourCyclesHamming]
  obtain ⟨hinc, hham⟩ := @claim_reductions_exact Fr Fr _ ⟨id⟩ _ fourCyclesInc fourCycles ⟨rfl, hpoints⟩ (by decide)
    ⟨4, 16, 5, 6⟩ fourCyclesHamming ⟨.inl rfl, by decide, rfl, hpolys, rfl, hvirt⟩ 3 (by decide)
  refine ⟨hinc, hham, ?_, ?_, ?_⟩
  all_goals
    intro c hc
    obtain ⟨poly, -, rfl⟩ := List.mem_map.mp hc
    simp [fourCyclesHamming, intoPoint]

/-- With one cycle or two the increments' prover is in its first phase to the end, and a bytecode of
`2 ^ 25` words has more chunks than the pushforward's arrays. -/
theorem short_reductions_panic :
    ¬ @IncReductionExact Fr Fr _ ⟨id⟩ _ ⟨1, 0, [], [], [], []⟩ [.noOp] ∧
      ¬ @IncReductionExact Fr Fr _ ⟨id⟩ _ ⟨1, 1, [0], [0], [0], [0]⟩ [.noOp, .noOp] ∧
      ¬ @HammingReductionExact Fr Fr _ ⟨id⟩ _ 1 ⟨4, 16, 25, 6⟩ (List.replicate 4 .noOp) fourCyclesHamming := by
  refine ⟨fun h => ?_, fun h => ?_, fun h => ?_⟩
  · obtain ⟨ps, hrun, -⟩ := h.run [] rfl
    exact absurd hrun nofun
  · obtain ⟨ps, hrun, -⟩ := h.run [0] rfl
    exact absurd hrun nofun
  · obtain ⟨ps, hrun, -⟩ := h.run [0, 0, 0, 0] rfl
    have hstart : @HammingProver.start Fr Fr _ ⟨id⟩ fourCyclesHamming 1 ⟨4, 16, 25, 6⟩ (List.replicate 4 .noOp) = .none := by
      rw [HammingProver.start, computeAllG, if_neg (by decide)]
      rfl
    rw [HammingProver.run, hstart] at hrun
    cases hrun

end LightningJolt
