/-
The virtualization of the instructions' and of the memory's one-hot polynomials
(`jolt-core/src/zkvm/instruction_lookups/ra_virtual.rs`, `jolt-core/src/zkvm/ram/ra_virtual.rs`): the
provers and the verifiers, the direct sumchecks, and the virtual polynomials as products of chunks.
-/
import LightningJolt.EqBuilders
import LightningJolt.IncReduction
import LightningJolt.RafTables
import LightningJolt.RaPushforward
import LightningJolt.RaRounds
import LightningJolt.ScalarField

namespace LightningJolt

open Finset

variable {F C : Type} [JoltField F] [Challenge C F]

/-! ## Chunks of the configuration -/

namespace OneHotParams

variable (p : OneHotParams)

/-- `n_committed_per_virtual`. -/
def nCommittedPerVirtual : Nat := p.lookupsRaVirtualLogKChunk / p.logKChunk

/-- `n_virtual_ra_polys`. -/
def nVirtualRaPolys : Nat := lookupsLogK / p.lookupsRaVirtualLogKChunk

end OneHotParams

/-! ## The instructions' prover -/

/-- `InstructionRaSumcheckParams`, with the challenge its powers are of. -/
structure InstructionRaParams (F C : Type) where
  rCycle : List C
  rAddress : List C
  gamma : F

namespace InstructionRaParams

omit [JoltField F] [Challenge C F] in
/-- `new`, from the points at which the virtual polynomials were opened. -/
def new (p : OneHotParams) (point : Nat → Option (List C)) (gamma : F) : Option (InstructionRaParams F C) := do
  let rAddressChunks ← (List.range p.nVirtualRaPolys).mapM fun i => do
    .some ((← point i).take p.lookupsRaVirtualLogKChunk)
  .some { rCycle := (← point 0).drop p.lookupsRaVirtualLogKChunk, rAddress := rAddressChunks.flatten, gamma }

variable (ip : InstructionRaParams F C) (p : OneHotParams) (cycles : List CycleWitness)

omit [Challenge C F] in
/-- `input_claim`. -/
def inputClaim (raClaim : Nat → F) : F :=
  ((List.range p.nVirtualRaPolys).map fun i => ip.gamma ^ i * raClaim i).sum

variable [Zero C] [DecidableEq F]

omit [Challenge C F] [Zero C] in
/-- The factor that the table of a polynomial is scaled by. -/
def scalingFactor (i : Nat) : Option F :=
  if i % p.nCommittedPerVirtual = 0 then
    let gamma := ip.gamma ^ (i / p.nCommittedPerVirtual)
    if gamma ≠ 1 then .some gamma else .none
  else .none

/-- The rows and the tables of `initialize`. -/
def rows : RaRows F where
  total := p.instructionD
  indices i := cycles.map fun c => .some (p.chunk p.instructionD i c.lookupIndex)
  table i := EqPolynomial.evalsWithScaling ((p.computeRAddressChunks ip.rAddress).getD i []) (ip.scalingFactor p i)

/-- `initialize`. -/
def start : Option (RaState F C) :=
  if p.instructionD ≤ (p.computeRAddressChunks ip.rAddress).length then (ip.rows p cycles).start ip.rCycle else .none

omit [Zero C] in
/-- `compute_message`, of the numbers of factors that there is a kernel for. -/
def computeMessage (s : RaState F C) (previousClaim : F) : Option (UniPoly F) := do
  let evals ← match p.nCommittedPerVirtual with
    | 4 => computeMlesSumOfProductsEvalsD 4 evalProd4Assign s.raIPolys p.nVirtualRaPolys s.eqPoly
    | 8 => computeMlesSumOfProductsEvalsD 8 evalProd8Assign s.raIPolys p.nVirtualRaPolys s.eqPoly
    | 16 => computeMlesSumOfProductsEvalsD 16 evalProd16Assign s.raIPolys p.nVirtualRaPolys s.eqPoly
    | _ => .none
  finishMlesProductSumFromEvals evals previousClaim s.eqPoly

omit [Zero C] in
/-- The prover of the sumcheck. -/
def prover : FallibleProver (RaState F C) F C where
  computeMessage := computeMessage p
  ingestChallenge := RaState.ingestChallenge

/-- `cache_openings`: each point with its claim, the scaling undone. -/
def cacheOpenings (s : RaState F C) (sumcheckChallenges : List C) : Option (List (List C × F)) :=
  (p.computeRAddressChunks ip.rAddress).zipIdx.mapM fun (rAddress, i) => do
    let claim ← (s.raIPolys[i]?).bind RaPolynomial.finalSumcheckClaim
    let claim ← match ip.scalingFactor p i with
      | .some gamma => GruenSplitEqPolynomial.divide claim gamma
      | .none => .some claim
    .some (rAddress ++ sumcheckChallenges.reverse, claim)

/-- The whole sumcheck: the messages, the last claim and the openings. -/
def run (claim : F) (rs : List C) : Option (List (UniPoly F) × F × List (List C × F)) := do
  let (ps, s, last) ← (prover p).rounds (← ip.start p cycles) claim rs
  .some (ps, last, ← ip.cacheOpenings p s rs)

omit [Zero C] [DecidableEq F] in
/-- `expected_output_claim`, of the claims of the committed polynomials. -/
def expectedOutputClaim (raClaim : Nat → F) (sumcheckChallenges : List C) : F :=
  EqPolynomial.mle (coordinates F ip.rCycle) (coordinates F sumcheckChallenges.reverse) *
    ((List.range p.nVirtualRaPolys).map fun i => ip.gamma ^ i *
      (tableOf p.nCommittedPerVirtual fun j => raClaim (i * p.nCommittedPerVirtual + j)).prod).sum

end InstructionRaParams

/-! ## The memory's prover -/

/-- `RamRaVirtualParams`. -/
structure RamRaVirtualParams (C : Type) where
  rCycle : List C
  rAddressChunks : List (List C)
  d : Nat
  logT : Nat

namespace RamRaVirtualParams

/-- `new`, from the point of the reduced claim. -/
def new [Zero C] (p : OneHotParams) (traceLen : Nat) (point : List C) : Option (RamRaVirtualParams C) := do
  .some {
    rCycle := point.drop p.ramLogK
    rAddressChunks := p.computeRAddressChunks (point.take p.ramLogK)
    d := p.ramD
    logT := ← log2 traceLen }

variable (F) (rp : RamRaVirtualParams C) (p : OneHotParams) (cycles : List CycleWitness)

/-- The rows and the tables of `initialize`. -/
def rows : RaRows F where
  total := min rp.d rp.rAddressChunks.length
  indices i := cycles.map fun c => c.ramAddress.map (p.chunk p.ramD i)
  table i := EqPolynomial.evals (rp.rAddressChunks.getD i [])

variable {F} [DecidableEq F]

/-- The prover of the sumcheck. -/
def prover : FallibleProver (RaState F C) F C where
  computeMessage s previousClaim := computeMlesProductSum s.raIPolys previousClaim s.eqPoly
  ingestChallenge := RaState.ingestChallenge

omit [Challenge C F] [DecidableEq F] in
/-- `cache_openings`. -/
def cacheOpenings (s : RaState F C) (sumcheckChallenges : List C) : Option (List (List C × F)) :=
  (List.range rp.d).mapM fun i => do
    let claim ← (s.raIPolys[i]?).bind RaPolynomial.finalSumcheckClaim
    .some ((← rp.rAddressChunks[i]?) ++ sumcheckChallenges.reverse, claim)

/-- The whole sumcheck. -/
def run (claim : F) (rs : List C) : Option (List (UniPoly F) × F × List (List C × F)) := do
  let (ps, s, last) ← prover.rounds (← (rp.rows F p cycles).start rp.rCycle) claim rs
  .some (ps, last, ← rp.cacheOpenings s rs)

omit [DecidableEq F] in
/-- `expected_output_claim`. -/
def expectedOutputClaim (raClaim : Nat → F) (sumcheckChallenges : List C) : F :=
  EqPolynomial.mle (coordinates F rp.rCycle) (coordinates F sumcheckChallenges.reverse) * (tableOf rp.d raClaim).prod

end RamRaVirtualParams

/-! ## Direct sumchecks -/

/-- A committed polynomial at an address point, of the cycle. -/
def chunkMle (n : Nat) (cycles : List CycleWitness) (chunk : List C) (index : CycleWitness → Option Nat) :
    List F → F :=
  mleOf n fun j => ((index (cycles.getD j .noOp)).map fun k => eqAt (coordinates F chunk) k).getD 0

theorem prod_tableOf (d : Nat) (f : Nat → F) : (tableOf d f).prod = ∏ j ∈ range d, f j := rfl

theorem zipIdx_tableOf {α : Type} (n : Nat) (f : Nat → α) : (tableOf n f).zipIdx = tableOf n fun i => (f i, i) := by
  refine List.ext_getElem? fun i => ?_
  by_cases hi : i < n
  · rw [List.getElem?_zipIdx, getElem?_tableOf hi, getElem?_tableOf hi]
    simp
  · rw [List.getElem?_eq_none (by rw [List.length_zipIdx, length_tableOf]; omega),
      List.getElem?_eq_none (by rw [length_tableOf]; omega)]

/-- The parts of a list, one after the other. -/
theorem flatten_parts {α : Type} (k n : Nat) (xs : List α) :
    (tableOf n fun t => (xs.drop (t * k)).take k).flatten = xs.take (n * k) := by
  induction n with
  | zero => rw [Nat.zero_mul, List.take_zero]; rfl
  | succ n ih =>
    rw [tableOf_add, List.flatten_append, ih, Nat.succ_mul, List.take_add]
    simp [tableOf]

/-- The chunks of a point that is a whole number of them. -/
theorem computeRAddressChunks_whole [Zero C] {p : OneHotParams} (hk : 0 < p.logKChunk) {rAddress : List C} {d : Nat}
    (hlen : rAddress.length = d * p.logKChunk) : p.computeRAddressChunks rAddress =
      tableOf d fun i => (rAddress.drop (i * p.logKChunk)).take p.logKChunk := by
  rw [OneHotParams.computeRAddressChunks, if_pos (by rw [hlen, Nat.mul_mod_left]), OneHotParams.chunks, hlen,
    divCeil_mul_right hk]
  rfl

/-! ## Digits in blocks -/

theorem div_mod_block (k d e x : Nat) (he : e + k ≤ d) : x % 2 ^ d / 2 ^ e % 2 ^ k = x / 2 ^ e % 2 ^ k := by
  obtain ⟨f, rfl⟩ : ∃ f, d = e + f := ⟨d - e, by omega⟩
  rw [pow_add, Nat.mod_mul_right_div_self, Nat.mod_mod_of_dvd _ (Nat.pow_dvd_pow 2 (by omega))]

/-- The tables of the chunks in a block multiply to that of the block. -/
theorem prod_block {k d m : Nat} {xs : List F} (hlen : xs.length = m * (d * k)) {t : Nat} (ht : t < m) (x : Nat) :
    ∏ j ∈ range d, eqAt ((xs.drop ((t * d + j) * k)).take k) (x / 2 ^ (k * (m * d - 1 - (t * d + j))) % 2 ^ k) =
      eqAt ((xs.drop (t * (d * k))).take (d * k)) (x / 2 ^ (d * k * (m - 1 - t)) % 2 ^ (d * k)) := by
  have hrest : (t + 1) * (d * k) ≤ m * (d * k) := Nat.mul_le_mul_right _ ht
  have hblock : ((xs.drop (t * (d * k))).take (d * k)).length = d * k := by
    rw [List.length_take, List.length_drop, hlen]
    rw [Nat.succ_mul] at hrest
    omega
  have hprod := prod_chunks k d _ hblock (Nat.mod_lt (x / 2 ^ (d * k * (m - 1 - t))) (Nat.two_pow_pos (d * k)))
  rw [← hprod]
  refine prod_congr rfl fun j hj => ?_
  have hj := mem_range.mp hj
  have hin : j * k + k ≤ d * k := by
    rw [← Nat.succ_mul]
    exact Nat.mul_le_mul_right k hj
  have hdrop : ((xs.drop (t * (d * k))).take (d * k) |>.drop (j * k)).take k = (xs.drop ((t * d + j) * k)).take k := by
    rw [List.drop_take, List.take_take, Nat.min_eq_left (by omega), List.drop_drop]
    congr 2
    ring
  have hshift : k * (m * d - 1 - (t * d + j)) = d * k * (m - 1 - t) + k * (d - 1 - j) := by
    obtain ⟨u, rfl⟩ : ∃ u, m = t + 1 + u := ⟨m - (t + 1), by omega⟩
    obtain ⟨v, rfl⟩ : ∃ v, d = j + 1 + v := ⟨d - (j + 1), by omega⟩
    have hhigh : (t + 1 + u) * (j + 1 + v) - 1 - (t * (j + 1 + v) + j) = u * (j + 1 + v) + v := by
      have hexpand : (t + 1 + u) * (j + 1 + v) = t * (j + 1 + v) + (j + 1 + v) + u * (j + 1 + v) := by ring
      omega
    rw [hhigh, show t + 1 + u - 1 - t = u by omega, show j + 1 + v - 1 - j = v by omega]
    ring
  have hfit : k * (d - 1 - j) + k ≤ d * k := by
    obtain ⟨v, rfl⟩ : ∃ v, d = j + 1 + v := ⟨d - (j + 1), by omega⟩
    rw [show j + 1 + v - 1 - j = v by omega, Nat.mul_comm k v, ← Nat.succ_mul]
    exact Nat.mul_le_mul_right k (by omega)
  rw [hdrop, div_mod_block _ _ _ _ hfit, Nat.div_div_eq_div_mul, ← pow_add, ← hshift]

/-! ## The numbers of chunks -/

/-- What an accepted configuration says of the numbers of chunks. -/
theorem OneHotParams.dims {p : OneHotParams}
    (hvalid : OneHotConfig.validate ⟨p.logKChunk, p.lookupsRaVirtualLogKChunk⟩ = true) :
    (p.logKChunk = 4 ∨ p.logKChunk = 8) ∧ 0 < p.nCommittedPerVirtual ∧
      p.lookupsRaVirtualLogKChunk = p.nCommittedPerVirtual * p.logKChunk ∧
      lookupsLogK = p.nVirtualRaPolys * p.lookupsRaVirtualLogKChunk ∧
      p.instructionD = p.nVirtualRaPolys * p.nCommittedPerVirtual := by
  simp only [OneHotConfig.validate, Bool.and_eq_true, Bool.or_eq_true, decide_eq_true_eq, ← Nat.dvd_iff_mod_eq_zero]
    at hvalid
  obtain ⟨hk, ⟨⟨hle, -⟩, hdvd⟩, hwhole⟩ := hvalid
  have hpos : 0 < p.logKChunk := by omega
  have hvirtual : p.lookupsRaVirtualLogKChunk = p.nCommittedPerVirtual * p.logKChunk := (Nat.div_mul_cancel hdvd).symm
  have hall : lookupsLogK = p.nVirtualRaPolys * p.lookupsRaVirtualLogKChunk := (Nat.div_mul_cancel hwhole).symm
  refine ⟨hk, Nat.div_pos hle hpos, hvirtual, hall, ?_⟩
  rw [OneHotParams.instructionD, hall, hvirtual, ← Nat.mul_assoc, divCeil_mul_right hpos]

/-! ## The instructions' rows -/

namespace InstructionRaParams

variable (ip : InstructionRaParams F C) (p : OneHotParams) (cycles : List CycleWitness)

/-- What the sumcheck is over: an accepted configuration, an address of all bits, and as many
cycles as the point has coordinates for. -/
structure WellFormed : Prop where
  config : OneHotConfig.validate ⟨p.logKChunk, p.lookupsRaVirtualLogKChunk⟩ = true
  address : ip.rAddress.length = lookupsLogK
  trace : cycles.length = 2 ^ ip.rCycle.length

/-- The chunk of the address point that a committed polynomial is opened at. -/
def addressChunk (i : Nat) : List C := (ip.rAddress.drop (i * p.logKChunk)).take p.logKChunk

/-- A committed polynomial over the cycles, at its chunk of the address. -/
def ra (i : Nat) : List F → F :=
  chunkMle ip.rCycle.length cycles (ip.addressChunk p i) fun c => .some (p.chunk p.instructionD i c.lookupIndex)

/-- What the direct sumcheck sums. -/
def summand (c : List F) : F :=
  eqMle (coordinates F ip.rCycle) c * ∑ t ∈ range p.nVirtualRaPolys, ip.gamma ^ t *
    (tableOf p.nCommittedPerVirtual fun j => ip.ra p cycles (t * p.nCommittedPerVirtual + j) c).prod

variable {ip p cycles}

omit [JoltField F] [Challenge C F] in
theorem WellFormed.chunks_eq [Zero C] (h : ip.WellFormed p cycles) :
    p.computeRAddressChunks ip.rAddress = tableOf p.instructionD (ip.addressChunk p) := by
  obtain ⟨hk, -, hvirtual, hall, hd⟩ := OneHotParams.dims h.config
  refine computeRAddressChunks_whole (by omega) ?_
  rw [h.address, hall, hvirtual, hd, Nat.mul_assoc]

omit [JoltField F] [Challenge C F] in
theorem WellFormed.length_addressChunk (h : ip.WellFormed p cycles) {i : Nat} (hi : i < p.instructionD) :
    (ip.addressChunk p i).length = p.logKChunk := by
  obtain ⟨-, -, hvirtual, hall, hd⟩ := OneHotParams.dims h.config
  have hfit : (i + 1) * p.logKChunk ≤ p.instructionD * p.logKChunk := Nat.mul_le_mul_right _ hi
  have hwhole : lookupsLogK = p.instructionD * p.logKChunk := by rw [hall, hvirtual, hd, Nat.mul_assoc]
  rw [Nat.succ_mul] at hfit
  rw [addressChunk, List.length_take, List.length_drop, h.address, hwhole]
  omega

variable [DecidableEq F]

omit [Challenge C F] in
/-- The factor of a polynomial: a power of the challenge for the first of a product. -/
theorem scalingFactor_getD (i : Nat) : (ip.scalingFactor p i).getD 1 =
    if i % p.nCommittedPerVirtual = 0 then ip.gamma ^ (i / p.nCommittedPerVirtual) else 1 := by
  rw [scalingFactor]
  by_cases hfirst : i % p.nCommittedPerVirtual = 0
  · rw [if_pos hfirst, if_pos hfirst]
    by_cases hone : ip.gamma ^ (i / p.nCommittedPerVirtual) = 1
    · simp only [hone, ne_eq, not_true_eq_false, if_false, Option.getD_none]
    · simp only [ne_eq, hone, not_false_eq_true, if_true, Option.getD_some]
  · rw [if_neg hfirst, if_neg hfirst]
    rfl

theorem WellFormed.entry_eq [Zero C] (h : ip.WellFormed p cycles) {i j : Nat} (hi : i < p.instructionD)
    (hj : j < 2 ^ ip.rCycle.length) :
    entry ((ip.rows p cycles).table i) ((ip.rows p cycles).indices i) j = .some ((ip.scalingFactor p i).getD 1 *
      eqAt (coordinates F (ip.addressChunk p i)) (p.chunk p.instructionD i (cycles.getD j .noOp).lookupIndex)) := by
  have hcycle : j < cycles.length := by rwa [h.trace]
  have hchunk := p.chunk_lt p.instructionD i cycles[j].lookupIndex
  have hlength : (coordinates F (ip.addressChunk p i)).length = p.logKChunk := by
    rw [length_coordinates, h.length_addressChunk hi]
  have hbuild := (EqPolynomial.builders_agree (ip.addressChunk p i) (ip.scalingFactor p i)).2.2.1
  rw [entry, rows]
  simp only
  rw [List.getElem?_map, List.getElem?_eq_getElem hcycle, h.chunks_eq, getD_tableOf hi, hbuild, cubeTable_eq,
    ← coordinates, List.getD_eq_getElem _ _ hcycle]
  simp only [Option.map_some, Option.bind_eq_bind, Option.bind_some, entryOf]
  rw [List.getElem?_map, getElem?_eqTable (by rwa [hlength])]
  rfl

theorem WellFormed.fits [Zero C] (h : ip.WellFormed p cycles) (hrounds : 3 ≤ ip.rCycle.length) :
    (ip.rows p cycles).Fits ip.rCycle.length where
  rounds := hrounds
  length i _ := by rw [rows, List.length_map, h.trace]
  entries i hi j hj := by rw [h.entry_eq hi hj]; rfl

/-- The rows are the committed polynomials, scaled. -/
theorem WellFormed.mle_eq [Zero C] (h : ip.WellFormed p cycles) {i : Nat} (hi : i < p.instructionD) (c : List F) :
    (ip.rows p cycles).mle ip.rCycle.length i c = (ip.scalingFactor p i).getD 1 * ip.ra p cycles i c := by
  rw [RaRows.mle, ra, chunkMle, ← mleOf_const_mul]
  refine congrFun (mleOf_congr fun j hj => ?_) c
  rw [RaRows.value, h.entry_eq hi hj]
  rfl

/-- A product of rows has one factor that is scaled. -/
theorem WellFormed.prod_rows [Zero C] (h : ip.WellFormed p cycles) {t : Nat} (ht : t < p.nVirtualRaPolys) (c : List F) :
    (tableOf p.nCommittedPerVirtual fun j =>
        (ip.rows p cycles).mle ip.rCycle.length (t * p.nCommittedPerVirtual + j) c).prod =
      ip.gamma ^ t * (tableOf p.nCommittedPerVirtual fun j => ip.ra p cycles (t * p.nCommittedPerVirtual + j) c).prod := by
  obtain ⟨-, hpos, -, -, hd⟩ := OneHotParams.dims h.config
  have hindex : ∀ j ∈ range p.nCommittedPerVirtual, t * p.nCommittedPerVirtual + j < p.instructionD := fun j hj => by
    have hlast : (t + 1) * p.nCommittedPerVirtual ≤ p.nVirtualRaPolys * p.nCommittedPerVirtual :=
      Nat.mul_le_mul_right _ ht
    rw [Nat.succ_mul] at hlast
    rw [hd]
    have := mem_range.mp hj
    omega
  have hscale : ∀ j ∈ range p.nCommittedPerVirtual,
      (ip.scalingFactor p (t * p.nCommittedPerVirtual + j)).getD 1 = if j = 0 then ip.gamma ^ t else 1 := fun j hj => by
    have hj := mem_range.mp hj
    rw [scalingFactor_getD, Nat.mul_add_mod_of_lt hj, Nat.mul_comm, Nat.mul_add_div hpos, Nat.div_eq_of_lt hj, add_zero]
  rw [prod_tableOf, prod_tableOf, prod_congr rfl fun j hj => h.mle_eq (hindex j hj) c, prod_mul_distrib,
    prod_congr rfl hscale, prod_ite_eq' (range p.nCommittedPerVirtual) 0, if_pos (mem_range.mpr hpos)]

theorem WellFormed.summand_eq [Zero C] (h : ip.WellFormed p cycles) :
    (ip.rows p cycles).summand ip.rCycle p.nCommittedPerVirtual p.nVirtualRaPolys = ip.summand p cycles := by
  funext c
  rw [RaRows.summand, summand]
  exact congrArg _ (sum_congr rfl fun t ht => h.prod_rows (mem_range.mp ht) c)

/-! ## The instructions' rounds -/

/-- The numbers of factors that there is a kernel for. -/
def HasKernel (p : OneHotParams) : Prop :=
  p.nCommittedPerVirtual = 4 ∨ p.nCommittedPerVirtual = 8 ∨ p.nCommittedPerVirtual = 16

theorem computeMessage_eq (hkernel : HasKernel p) : ∃ d evalProd, p.nCommittedPerVirtual = d + 1 ∧ 1 ≤ d ∧
    (∀ pairs : List (F × F), pairs.length = d + 1 → evalProd pairs = grid pairs) ∧
    ∀ (s : RaState F C) previousClaim, computeMessage p s previousClaim =
      (computeMlesSumOfProductsEvalsD (d + 1) evalProd s.raIPolys p.nVirtualRaPolys s.eqPoly).bind
        (finishMlesProductSumFromEvals · previousClaim s.eqPoly) := by
  rcases hkernel with hkernel | hkernel | hkernel
  · exact ⟨3, evalProd4Assign, hkernel, by decide, fun _ h => evalProd4Assign_eq h,
      fun s claim => by rw [computeMessage, hkernel]; rfl⟩
  · exact ⟨7, evalProd8Assign, hkernel, by decide, fun _ h => evalProd8Assign_eq h,
      fun s claim => by rw [computeMessage, hkernel]; rfl⟩
  · exact ⟨15, evalProd16Assign, hkernel, by decide, fun _ h => evalProd16Assign_eq h,
      fun s claim => by rw [computeMessage, hkernel]; rfl⟩

/-- The rounds go through: enough cycles, a kernel, small numbers not zero in the field, and no
coordinate of the point equal to one. -/
structure Rounds (ip : InstructionRaParams F C) (p : OneHotParams) : Prop where
  rounds : 3 ≤ ip.rCycle.length
  kernel : HasKernel p
  point : ∀ c ∈ ip.rCycle, (1 : F) - Challenge.into c ≠ 0
  char : ∀ k, 0 < k → k < p.nCommittedPerVirtual → (k : F) ≠ 0

theorem WellFormed.exact [Zero C] (h : ip.WellFormed p cycles) (hr : ip.Rounds p) :
    (prover p : FallibleProver (RaState F C) F C).Exact (ip.summand p cycles) (p.nCommittedPerVirtual + 1)
      ((ip.rows p cycles).At ip.rCycle) where
  message := by
    intro n z s hs
    obtain ⟨d, evalProd, hd, hone, heval, hmessage⟩ := computeMessage_eq (F := F) (C := C) hr.kernel
    obtain ⟨-, -, -, -, htotal⟩ := OneHotParams.dims h.config
    have hround := hs.sumOfProducts_message (h.fits hr.rounds) hone
      (show _ = p.nVirtualRaPolys * (d + 1) by rw [← hd]; exact htotal) hr.point (fun k hk hlt => hr.char k hk (by rwa [hd])) heval
    rw [← hd, h.summand_eq] at hround
    obtain ⟨q, hq, his⟩ := hround
    exact ⟨q, by rw [hd] at hq; exact (hmessage s _).trans hq, by rw [hd]; exact his⟩
  challenge hs r := hs.challenge (h.fits hr.rounds) r

omit [Challenge C F] in
theorem scalingFactor_ne_zero (hvalid : OneHotConfig.validate ⟨p.logKChunk, p.lookupsRaVirtualLogKChunk⟩ = true)
    (hgamma : ip.gamma ≠ 0 ∨ p.nVirtualRaPolys = 1) {i : Nat} (hi : i < p.instructionD) {gamma : F}
    (h : ip.scalingFactor p i = .some gamma) : gamma ≠ 0 := by
  obtain ⟨-, -, -, -, hd⟩ := OneHotParams.dims hvalid
  have hscale := @scalingFactor_getD F C _ ip p _ i
  rw [h, Option.getD_some] at hscale
  rw [hscale]
  split_ifs with hfirst
  · rcases hgamma with hgamma | hone
    · exact pow_ne_zero _ hgamma
    · rw [hd, hone, Nat.one_mul] at hi
      rw [Nat.div_eq_of_lt hi, pow_zero]
      exact one_ne_zero
  · exact one_ne_zero

/-- The openings are the committed polynomials' own values. -/
theorem WellFormed.cacheOpenings_eq [Zero C] (h : ip.WellFormed p cycles) (hrounds : 3 ≤ ip.rCycle.length)
    (hgamma : ip.gamma ≠ 0 ∨ p.nVirtualRaPolys = 1) {z : List F} {s : RaState F C}
    (hs : (ip.rows p cycles).At ip.rCycle 0 z s) (rs : List C) :
    ip.cacheOpenings p s rs =
      .some (tableOf p.instructionD fun i => (ip.addressChunk p i ++ rs.reverse, ip.ra p cycles i z)) := by
  rw [cacheOpenings, h.chunks_eq, zipIdx_tableOf, tableOf, List.mapM_map]
  refine mapM_range fun i hi => ?_
  simp only [Function.comp_apply]
  rw [hs.claim (h.fits hrounds) hi, h.mle_eq hi, Option.bind_eq_bind, Option.bind_some]
  cases hscale : ip.scalingFactor p i with
  | none => simp
  | some gamma =>
    have hne := scalingFactor_ne_zero h.config hgamma hi hscale
    simp only [Option.getD_some]
    rw [GruenSplitEqPolynomial.divide_eq hne, mul_div_cancel_left₀ _ hne]
    rfl

/-- **The instructions' sumcheck** from the sum over the cycles to the openings. -/
theorem WellFormed.run_eq [Zero C] (h : ip.WellFormed p cycles) (hr : ip.Rounds p)
    (hgamma : ip.gamma ≠ 0 ∨ p.nVirtualRaPolys = 1) {rs : List C} (hrs : rs.length = ip.rCycle.length) :
    ∃ ps, ip.run p cycles (cubeSum (ip.summand p cycles) ip.rCycle.length []) rs =
        .some (ps, ip.summand p cycles (intoPoint rs.reverse), tableOf p.instructionD fun i =>
          (ip.addressChunk p i ++ rs.reverse, ip.ra p cycles i (intoPoint rs.reverse))) ∧
      Direct (ip.summand p cycles) (p.nCommittedPerVirtual + 1) [] rs ps := by
  obtain ⟨s, hs, hat⟩ := (h.fits hr.rounds).start_at
  rw [← hrs] at hat ⊢
  obtain ⟨ps, s', hrounds, hdirect, hlast⟩ := (h.exact hr).rounds rs hat
  have hstart : ip.start p cycles = .some s := by
    rw [start, if_pos (by rw [h.chunks_eq, length_tableOf]), hs]
  rw [List.append_nil, ← List.map_reverse] at hrounds hlast
  refine ⟨ps, ?_, hdirect⟩
  rw [run, hstart, Option.bind_eq_bind, Option.bind_some, hrounds, Option.bind_eq_bind, Option.bind_some]
  simp only
  rw [h.cacheOpenings_eq hr.rounds hgamma hlast]
  rfl

omit [DecidableEq F] in
theorem expectedOutputClaim_eq (rs : List C) :
    ip.expectedOutputClaim p (fun i => ip.ra p cycles i (intoPoint rs.reverse)) rs =
      ip.summand p cycles (intoPoint rs.reverse) := by
  rw [expectedOutputClaim, EqPolynomial.mle_eq]
  rfl

/-! ## The instructions' virtual polynomials -/

/-- What `init_log_t_rounds` of the read-RAF sumcheck has in a virtual polynomial for a cycle. -/
def readRafRa (phases : Nat) (p : OneHotParams) (rAddress : List C) (t lookupIndex : Nat) : Option F := do
  let logM := lookupsLogK / phases
  let chunkSize := phases / p.nVirtualRaPolys
  let factors ← (List.range chunkSize).mapM fun j => do
    let phase := t * chunkSize + j
    let v ← phaseTable logM (coordinates F ((rAddress.drop (phase * logM)).take logM))
    v[(lookupIndex >>> ((phases - 1 - phase) * logM)) &&& (2 ^ logM - 1)]?
  .some factors.prod

/-- A virtual polynomial over the cycles. -/
def virtualRa (phases : Nat) (ip : InstructionRaParams F C) (p : OneHotParams) (cycles : List CycleWitness) (t : Nat) :
    List F → F :=
  mleOf ip.rCycle.length fun j =>
    ((readRafRa phases p ip.rAddress t (cycles.getD j .noOp).lookupIndex : Option F)).getD 0

/-- A part of the address point at the same part of the index. -/
def partEq (p : OneHotParams) (rAddress : List C) (t lookupIndex : Nat) : F :=
  eqAt (((coordinates F rAddress).drop (t * p.lookupsRaVirtualLogKChunk)).take p.lookupsRaVirtualLogKChunk)
    (lookupIndex / 2 ^ (p.lookupsRaVirtualLogKChunk * (p.nVirtualRaPolys - 1 - t)) % 2 ^ p.lookupsRaVirtualLogKChunk)

omit [DecidableEq F] in
theorem coordinates_part (xs : List C) (a b : Nat) :
    coordinates F ((xs.drop a).take b) = ((coordinates F xs).drop a).take b := by
  rw [coordinates, coordinates, List.map_take, List.map_drop]

omit [DecidableEq F] in
/-- The committed polynomials of a product multiply to the part. -/
theorem WellFormed.prod_ra (h : ip.WellFormed p cycles) {t : Nat} (ht : t < p.nVirtualRaPolys) (lookupIndex : Nat) :
    ∏ j ∈ range p.nCommittedPerVirtual, eqAt (coordinates F (ip.addressChunk p (t * p.nCommittedPerVirtual + j)))
        (p.chunk p.instructionD (t * p.nCommittedPerVirtual + j) lookupIndex) =
      (partEq p ip.rAddress t lookupIndex : F) := by
  obtain ⟨hk, -, hvirtual, hall, hd⟩ := OneHotParams.dims h.config
  have hblock := @prod_block F _ p.logKChunk p.nCommittedPerVirtual p.nVirtualRaPolys (coordinates F ip.rAddress)
    (by rw [length_coordinates, h.address, hall, hvirtual]) t ht lookupIndex
  rw [← hvirtual] at hblock
  rw [partEq, ← hblock]
  refine prod_congr rfl fun j _ => ?_
  rw [addressChunk, coordinates_part, chunk_eq (by omega), hd]

omit [DecidableEq F] in
/-- So do the phases' tables. -/
theorem readRafRa_eq {phases size logM : Nat} {rAddress : List C} (hlen : rAddress.length = lookupsLogK)
    (hphases : phases = p.nVirtualRaPolys * size) (hsize : p.lookupsRaVirtualLogKChunk = size * logM)
    (hall : lookupsLogK = phases * logM) {t : Nat} (ht : t < p.nVirtualRaPolys) (lookupIndex : Nat) :
    readRafRa phases p rAddress t lookupIndex = .some (partEq p rAddress t lookupIndex : F) := by
  have hpos : 0 < p.nVirtualRaPolys := by omega
  have hpositive : 0 < phases := Nat.pos_of_ne_zero fun hzero => by
    rw [hzero, Nat.zero_mul] at hall
    exact absurd hall (by decide)
  have hlogM : lookupsLogK / phases = logM := by rw [hall, Nat.mul_div_cancel_left _ hpositive]
  have hchunkSize : phases / p.nVirtualRaPolys = size := by rw [hphases, Nat.mul_div_cancel_left _ hpos]
  have hfactor : ∀ j < size, (do
      let v ← phaseTable logM (coordinates F ((rAddress.drop ((t * size + j) * logM)).take logM))
      v[(lookupIndex >>> ((phases - 1 - (t * size + j)) * logM)) &&& (2 ^ logM - 1)]?) =
      .some (eqAt (((coordinates F rAddress).drop ((t * size + j) * logM)).take logM)
        (lookupIndex / 2 ^ (logM * (phases - 1 - (t * size + j))) % 2 ^ logM)) := by
    intro j hj
    have hfit : (t * size + j + 1) * logM ≤ phases * logM := by
      have hlast : (t + 1) * size ≤ p.nVirtualRaPolys * size := Nat.mul_le_mul_right _ ht
      rw [Nat.succ_mul] at hlast
      exact Nat.mul_le_mul_right _ (by omega)
    rw [Nat.succ_mul] at hfit
    have hpart : (((coordinates F rAddress).drop ((t * size + j) * logM)).take logM).length = logM := by
      rw [List.length_take, List.length_drop, length_coordinates, hlen, hall]
      omega
    have hmod := Nat.mod_lt (lookupIndex / 2 ^ (logM * (phases - 1 - (t * size + j)))) (Nat.two_pow_pos logM)
    rw [coordinates_part, phaseTable_eq hpart, Option.bind_eq_bind, Option.bind_some, Nat.and_two_pow_sub_one_eq_mod,
      Nat.shiftRight_eq_div_pow, Nat.mul_comm (phases - 1 - (t * size + j)) logM, getElem?_eqTable (by rwa [hpart])]
  have hblock := @prod_block F _ logM size p.nVirtualRaPolys (coordinates F rAddress)
    (by rw [length_coordinates, hlen, hall, hphases, Nat.mul_assoc]) t ht lookupIndex
  rw [readRafRa, hlogM, hchunkSize]
  simp only
  rw [mapM_range hfactor, Option.bind_eq_bind, Option.bind_some, prod_tableOf, partEq, hsize, ← hblock]
  rw [hphases]

omit [JoltField F] [Challenge C F] [DecidableEq F] in
/-- Where there is a kernel the phases are whole numbers of virtual polynomials. -/
theorem phases_split (hvalid : OneHotConfig.validate ⟨p.logKChunk, p.lookupsRaVirtualLogKChunk⟩ = true)
    (hkernel : HasKernel p) {phases : Nat} (hphases : phases = 8 ∨ phases = 16) :
    ∃ size logM, phases = p.nVirtualRaPolys * size ∧ p.lookupsRaVirtualLogKChunk = size * logM ∧
      lookupsLogK = phases * logM := by
  obtain ⟨hk, -, hvirtual, hall, -⟩ := OneHotParams.dims hvalid
  rw [lookupsLogK] at hall ⊢
  have hwidth : ∃ e, p.lookupsRaVirtualLogKChunk = 16 * 2 ^ e ∧ p.nVirtualRaPolys * 2 ^ e = 8 ∧ e ≤ 3 := by
    rcases hk with hk | hk <;> rcases hkernel with hM | hM | hM <;> rw [hk, hM] at hvirtual <;> rw [hvirtual] at hall ⊢
    · exact ⟨0, by omega, by omega, by omega⟩
    · exact ⟨1, by omega, by omega, by omega⟩
    · exact ⟨2, by omega, by omega, by omega⟩
    · exact ⟨1, by omega, by omega, by omega⟩
    · exact ⟨2, by omega, by omega, by omega⟩
    · exact ⟨3, by omega, by omega, by omega⟩
  obtain ⟨e, hV, hN, -⟩ := hwidth
  rcases hphases with rfl | rfl
  · exact ⟨2 ^ e, 16, hN.symm, by rw [hV, Nat.mul_comm], rfl⟩
  · exact ⟨2 * 2 ^ e, 8, by rw [Nat.mul_left_comm, hN], by rw [hV]; ring, rfl⟩

omit [DecidableEq F] in
/-- **The committed polynomials multiply to the virtual one** that the read-RAF sumcheck opens. -/
theorem WellFormed.readRafRa_product (h : ip.WellFormed p cycles) (hkernel : HasKernel p) {phases : Nat}
    (hphases : phases = 8 ∨ phases = 16) {t : Nat} (ht : t < p.nVirtualRaPolys) (lookupIndex : Nat) :
    readRafRa phases p ip.rAddress t lookupIndex = .some (∏ j ∈ range p.nCommittedPerVirtual,
      (eqAt (coordinates F (ip.addressChunk p (t * p.nCommittedPerVirtual + j)))
        (p.chunk p.instructionD (t * p.nCommittedPerVirtual + j) lookupIndex) : F)) := by
  obtain ⟨size, logM, hcount, hsize, hall⟩ := phases_split h.config hkernel hphases
  rw [readRafRa_eq h.address hcount hsize hall ht, h.prod_ra ht]

omit [JoltField F] [Challenge C F] [DecidableEq F] in
/-- The parameters are those of the points that the virtual polynomials are opened at. -/
theorem WellFormed.new_eq (h : ip.WellFormed p cycles) :
    new p (fun t => .some ((ip.rAddress.drop (t * p.lookupsRaVirtualLogKChunk)).take p.lookupsRaVirtualLogKChunk ++
      ip.rCycle)) ip.gamma = .some ip := by
  obtain ⟨-, -, -, hall, -⟩ := OneHotParams.dims h.config
  have hlen : ∀ t < p.nVirtualRaPolys, ((ip.rAddress.drop (t * p.lookupsRaVirtualLogKChunk)).take
      p.lookupsRaVirtualLogKChunk).length = p.lookupsRaVirtualLogKChunk := fun t ht => by
    have hfit : (t + 1) * p.lookupsRaVirtualLogKChunk ≤ p.nVirtualRaPolys * p.lookupsRaVirtualLogKChunk :=
      Nat.mul_le_mul_right _ ht
    rw [Nat.succ_mul] at hfit
    rw [List.length_take, List.length_drop, h.address, hall]
    omega
  have hpos : 0 < p.nVirtualRaPolys := Nat.pos_of_ne_zero fun hzero => by
    rw [hzero, Nat.zero_mul] at hall
    exact absurd hall (by decide)
  have hparts : (List.range p.nVirtualRaPolys).mapM (fun i => do
      .some ((← some ((ip.rAddress.drop (i * p.lookupsRaVirtualLogKChunk)).take p.lookupsRaVirtualLogKChunk ++
        ip.rCycle)).take p.lookupsRaVirtualLogKChunk)) =
      .some (tableOf p.nVirtualRaPolys fun t =>
        (ip.rAddress.drop (t * p.lookupsRaVirtualLogKChunk)).take p.lookupsRaVirtualLogKChunk) :=
    mapM_range fun t ht => by rw [Option.bind_eq_bind, Option.bind_some, List.take_left' (hlen t ht)]
  rw [new, hparts, Option.bind_eq_bind, Option.bind_some, flatten_parts, ← hall, ← h.address, List.take_length,
    Option.bind_eq_bind, Option.bind_some, List.drop_left' (hlen 0 hpos)]

omit [DecidableEq F] in
/-- The claim that the sumcheck starts with. -/
theorem WellFormed.inputClaim_eq (h : ip.WellFormed p cycles) (hkernel : HasKernel p) {phases : Nat}
    (hphases : phases = 8 ∨ phases = 16) {raClaim : Nat → F}
    (hclaim : ∀ t < p.nVirtualRaPolys, raClaim t = ip.virtualRa phases p cycles t (coordinates F ip.rCycle)) :
    ip.inputClaim p raClaim = cubeSum (ip.summand p cycles) ip.rCycle.length [] := by
  have hterm : ∀ t ∈ range p.nVirtualRaPolys, ip.gamma ^ t * raClaim t = ∑ i ∈ range (2 ^ ip.rCycle.length),
      eqMle (coordinates F ip.rCycle) (bitsPoint ip.rCycle.length i) * (ip.gamma ^ t *
        (tableOf p.nCommittedPerVirtual fun j =>
          ip.ra p cycles (t * p.nCommittedPerVirtual + j) (bitsPoint ip.rCycle.length i)).prod) := by
    intro t ht
    rw [hclaim t (mem_range.mp ht), virtualRa, mleOf, mul_sum]
    refine sum_congr rfl fun i hi => ?_
    have hvalue : ∀ j, ip.ra p cycles (t * p.nCommittedPerVirtual + j) (bitsPoint ip.rCycle.length i) =
        eqAt (coordinates F (ip.addressChunk p (t * p.nCommittedPerVirtual + j)))
          (p.chunk p.instructionD (t * p.nCommittedPerVirtual + j) (cycles.getD i .noOp).lookupIndex) :=
      fun j => mleOf_bitsPoint _ (mem_range.mp hi)
    rw [h.readRafRa_product hkernel hphases (mem_range.mp ht), Option.getD_some, prod_tableOf,
      prod_congr rfl fun j _ => hvalue j]
    ring
  have hclaims : ip.inputClaim p raClaim = ∑ t ∈ range p.nVirtualRaPolys, ip.gamma ^ t * raClaim t := rfl
  rw [hclaims, sum_congr rfl hterm, sum_comm, cubeSum]
  refine sum_congr rfl fun i _ => ?_
  rw [List.append_nil, summand, mul_sum]

end InstructionRaParams

/-! ## The memory's rounds -/

namespace RamRaVirtualParams

variable {rp : RamRaVirtualParams C} {p : OneHotParams} {cycles : List CycleWitness}

/-- What the sumcheck is over: the chunks of an address point and the accesses below the memory's size. -/
structure WellFormed [Zero C] (rp : RamRaVirtualParams C) (p : OneHotParams) (cycles : List CycleWitness)
    (rAddress : List C) : Prop where
  chunk : p.logKChunk = 4 ∨ p.logKChunk = 8
  address : rAddress.length = p.ramLogK
  chunks : rp.rAddressChunks = p.computeRAddressChunks rAddress
  d : rp.d = p.ramD
  logT : rp.logT = rp.rCycle.length
  trace : cycles.length = 2 ^ rp.rCycle.length
  below : ∀ c ∈ cycles, ∀ a, c.ramAddress = .some a → a < 2 ^ p.ramLogK

/-- A committed polynomial over the cycles, at its chunk of the address. -/
def ra (rp : RamRaVirtualParams C) (p : OneHotParams) (cycles : List CycleWitness) (i : Nat) : List F → F :=
  chunkMle rp.rCycle.length cycles (rp.rAddressChunks.getD i []) fun c => c.ramAddress.map (p.chunk p.ramD i)

/-- What the direct sumcheck sums. -/
def summand (rp : RamRaVirtualParams C) (p : OneHotParams) (cycles : List CycleWitness) (c : List F) : F :=
  eqMle (coordinates F rp.rCycle) c * (tableOf rp.d fun i => rp.ra p cycles i c).prod

/-- The virtual polynomial over the cycles, as the reduction of its claims opens it. -/
def virtualRa (rp : RamRaVirtualParams C) (cycles : List CycleWitness) (rAddress : List C) : List F → F :=
  mleOf rp.rCycle.length fun j =>
    (((cycles.getD j .noOp).ramAddress).map fun a => (EqPolynomial.evals rAddress).getD a 0).getD 0

variable [Zero C] {rAddress : List C}

theorem WellFormed.length_chunks (hzero : (Challenge.into (0 : C) : F) = 0) (h : rp.WellFormed p cycles rAddress) :
    rp.rAddressChunks.length = rp.d := by
  rw [h.chunks, h.d, (computeRAddressChunks_eq (F := F) hzero h.chunk rAddress).1, h.address, OneHotParams.ramD]

theorem WellFormed.new_eq (h : rp.WellFormed p cycles rAddress) :
    new p cycles.length (rAddress ++ rp.rCycle) = .some rp := by
  rw [new, h.trace, EqPolynomial.log2_pow, List.drop_left' h.address, List.take_left' h.address, ← h.chunks, ← h.d,
    ← h.logT]
  rfl

theorem WellFormed.total_eq (hzero : (Challenge.into (0 : C) : F) = 0) (h : rp.WellFormed p cycles rAddress) :
    (rp.rows F p cycles).total = rp.d := by
  rw [rows, h.length_chunks hzero, Nat.min_self]

theorem WellFormed.entry_eq (h : rp.WellFormed p cycles rAddress) {i j : Nat} (hi : i < rp.d)
    (hj : j < 2 ^ rp.rCycle.length) :
    entry ((rp.rows F p cycles).table i) ((rp.rows F p cycles).indices i) j =
      .some ((((cycles.getD j .noOp).ramAddress.map (p.chunk p.ramD i)).map fun k =>
        eqAt (coordinates F (rp.rAddressChunks.getD i [])) k).getD 0) := by
  have hcycle : j < cycles.length := by rwa [h.trace]
  have hlength : (coordinates F (rp.rAddressChunks.getD i [])).length = p.logKChunk := by
    rw [length_coordinates, h.chunks, length_computeRAddressChunk h.chunk (by rwa [h.address, ← OneHotParams.ramD, ← h.d])]
  rw [entry, rows]
  simp only
  rw [List.getElem?_map, List.getElem?_eq_getElem hcycle, List.getD_eq_getElem _ _ hcycle]
  simp only [Option.map_some, Option.bind_eq_bind, Option.bind_some]
  cases haddress : cycles[j].ramAddress with
  | none => rfl
  | some a =>
    have hchunk := p.chunk_lt p.ramD i a
    simp only [Option.map_some, entryOf, Option.getD_some]
    rw [EqPolynomial.evals_eq, ← coordinates, getElem?_eqTable (by rwa [hlength])]

theorem WellFormed.fits (hzero : (Challenge.into (0 : C) : F) = 0) (h : rp.WellFormed p cycles rAddress)
    (hrounds : 3 ≤ rp.rCycle.length) : (rp.rows F p cycles).Fits rp.rCycle.length where
  rounds := hrounds
  length i _ := by rw [rows, List.length_map, h.trace]
  entries i hi j hj := by
    rw [h.total_eq hzero] at hi
    rw [h.entry_eq hi hj]
    rfl

theorem WellFormed.mle_eq (h : rp.WellFormed p cycles rAddress) {i : Nat} (hi : i < rp.d) :
    (rp.rows F p cycles).mle rp.rCycle.length i = rp.ra p cycles i :=
  mleOf_congr fun j hj => by rw [RaRows.value, h.entry_eq hi hj]; rfl

theorem WellFormed.summand_eq (hzero : (Challenge.into (0 : C) : F) = 0) (h : rp.WellFormed p cycles rAddress) :
    (rp.rows F p cycles).summand rp.rCycle (rp.rows F p cycles).total 1 = rp.summand p cycles := by
  funext c
  rw [RaRows.summand, sum_range_one, h.total_eq hzero, summand]
  refine congrArg (eqMle (coordinates F rp.rCycle) c * ·) (congrArg List.prod (tableOf_congr fun i hi => ?_))
  rw [Nat.zero_mul, Nat.zero_add, h.mle_eq hi]

/-- **The committed polynomials multiply to the virtual one**, absent accesses included. -/
theorem WellFormed.prod_ra (hzero : (Challenge.into (0 : C) : F) = 0) (h : rp.WellFormed p cycles rAddress)
    (hd : 0 < rp.d) {c : CycleWitness} (hc : ∀ a, c.ramAddress = .some a → a < 2 ^ p.ramLogK) :
    ∏ i ∈ range rp.d, (((c.ramAddress.map (p.chunk p.ramD i)).map fun k =>
        eqAt (coordinates F (rp.rAddressChunks.getD i [])) k).getD 0) =
      ((c.ramAddress.map fun a => (EqPolynomial.evals rAddress : List F).getD a 0).getD 0) := by
  cases haddress : c.ramAddress with
  | none => exact prod_eq_zero (mem_range.mpr hd) rfl
  | some a =>
    have hprod := (computeRAddressChunks_eq (F := F) hzero h.chunk rAddress).2 a (by rw [h.address]; exact hc a haddress)
    rw [h.address, ← OneHotParams.ramD, ← h.d] at hprod
    simp only [Option.map_some, Option.getD_some]
    rw [EqPolynomial.evals_eq, ← eqAt, ← hprod, h.chunks, h.d]
    rfl

theorem WellFormed.inputClaim_eq (hzero : (Challenge.into (0 : C) : F) = 0) (h : rp.WellFormed p cycles rAddress)
    (hd : 0 < rp.d) : virtualRa rp cycles rAddress (coordinates F rp.rCycle) =
      cubeSum (rp.summand p cycles) rp.rCycle.length [] := by
  rw [virtualRa, mleOf, cubeSum]
  refine sum_congr rfl fun j hj => ?_
  have hj := mem_range.mp hj
  have hcycle : j < cycles.length := by rwa [h.trace]
  have hbelow : ∀ a, (cycles.getD j .noOp).ramAddress = .some a → a < 2 ^ p.ramLogK := by
    rw [List.getD_eq_getElem _ _ hcycle]
    exact h.below _ (List.getElem_mem hcycle)
  have hvalue : ∀ i, rp.ra p cycles i (bitsPoint rp.rCycle.length j) =
      ((((cycles.getD j .noOp).ramAddress.map (p.chunk p.ramD i)).map fun k =>
        eqAt (coordinates F (rp.rAddressChunks.getD i [])) k).getD 0) := fun i => mleOf_bitsPoint _ hj
  rw [List.append_nil, summand, prod_tableOf, prod_congr rfl fun i _ => hvalue i, h.prod_ra hzero hd hbelow]

variable [DecidableEq F]

/-- The rounds go through: enough cycles, two factors or more, small numbers not zero in the field,
and no coordinate of the point equal to one. -/
structure Rounds (F : Type) [JoltField F] [Challenge C F] (rp : RamRaVirtualParams C) : Prop where
  rounds : 3 ≤ rp.rCycle.length
  factors : 2 ≤ rp.d
  point : ∀ c ∈ rp.rCycle, (1 : F) - Challenge.into c ≠ 0
  char : ∀ k, 0 < k → k < rp.d → (k : F) ≠ 0

theorem WellFormed.exact (hzero : (Challenge.into (0 : C) : F) = 0) (h : rp.WellFormed p cycles rAddress)
    (hr : rp.Rounds F) : (prover : FallibleProver (RaState F C) F C).Exact (rp.summand p cycles) (rp.d + 1)
      ((rp.rows F p cycles).At rp.rCycle) where
  message := by
    intro n z s hs
    have hround := hs.product_message (h.fits hzero hr.rounds) (by rw [h.total_eq hzero]; exact hr.factors) hr.point
      (fun k hk hlt => hr.char k hk (by rwa [h.total_eq hzero] at hlt))
    rwa [h.summand_eq hzero, h.total_eq hzero] at hround
  challenge hs r := hs.challenge (h.fits hzero hr.rounds) r

/-- **The memory's sumcheck** from the sum over the cycles to the openings. -/
theorem WellFormed.run_eq (hzero : (Challenge.into (0 : C) : F) = 0) (h : rp.WellFormed p cycles rAddress)
    (hr : rp.Rounds F) {rs : List C} (hrs : rs.length = rp.rCycle.length) :
    ∃ ps, rp.run p cycles (cubeSum (rp.summand p cycles) rp.rCycle.length []) rs =
        .some (ps, rp.summand p cycles (intoPoint rs.reverse), tableOf rp.d fun i =>
          (rp.rAddressChunks.getD i [] ++ rs.reverse, rp.ra p cycles i (intoPoint rs.reverse))) ∧
      Direct (rp.summand p cycles) (rp.d + 1) [] rs (ps : List (UniPoly F)) := by
  obtain ⟨s, hs, hat⟩ := (h.fits (F := F) hzero hr.rounds).start_at
  rw [← hrs] at hat ⊢
  obtain ⟨ps, s', hrounds, hdirect, hlast⟩ := (h.exact hzero hr).rounds rs hat
  rw [List.append_nil, ← List.map_reverse] at hrounds hlast
  have hopenings : rp.cacheOpenings s' rs = .some (tableOf rp.d fun i =>
      (rp.rAddressChunks.getD i [] ++ rs.reverse, rp.ra p cycles i (intoPoint rs.reverse))) := by
    rw [cacheOpenings]
    refine mapM_range fun i hi => ?_
    have hchunk : i < rp.rAddressChunks.length := by rwa [h.length_chunks hzero]
    rw [hlast.claim (h.fits hzero hr.rounds) (by rwa [h.total_eq hzero]), h.mle_eq hi,
      List.getElem?_eq_getElem hchunk, List.getD_eq_getElem _ _ hchunk]
    rfl
  refine ⟨ps, ?_, hdirect⟩
  rw [run, hs, Option.bind_eq_bind, Option.bind_some, hrounds, Option.bind_eq_bind, Option.bind_some]
  simp only
  rw [hopenings]
  rfl

omit [Zero C] [DecidableEq F] in
theorem expectedOutputClaim_eq (rs : List C) :
    rp.expectedOutputClaim (fun i => rp.ra p cycles i (intoPoint rs.reverse)) rs =
      (rp.summand p cycles (intoPoint rs.reverse) : F) := by
  rw [expectedOutputClaim, EqPolynomial.mle_eq]
  rfl

end RamRaVirtualParams

/-! ## Both -/

section Both

variable [Zero C] [DecidableEq F]

/-- The instructions' sumcheck is the direct one, and its polynomials multiply to the virtual ones. -/
structure InstructionRaExact (ip : InstructionRaParams F C) (p : OneHotParams) (cycles : List CycleWitness) :
    Prop where
  construct : InstructionRaParams.new p (fun t => .some ((ip.rAddress.drop (t * p.lookupsRaVirtualLogKChunk)).take
    p.lookupsRaVirtualLogKChunk ++ ip.rCycle)) ip.gamma = .some ip
  input : ∀ phases, phases = 8 ∨ phases = 16 → ∀ raClaim : Nat → F,
    (∀ t < p.nVirtualRaPolys, raClaim t = ip.virtualRa phases p cycles t (coordinates F ip.rCycle)) →
    ip.inputClaim p raClaim = cubeSum (ip.summand p cycles) ip.rCycle.length []
  run : ∀ rs : List C, rs.length = ip.rCycle.length →
    ∃ ps, ip.run p cycles (cubeSum (ip.summand p cycles) ip.rCycle.length []) rs =
        .some (ps, ip.summand p cycles (intoPoint rs.reverse), tableOf p.instructionD fun i =>
          (ip.addressChunk p i ++ rs.reverse, ip.ra p cycles i (intoPoint rs.reverse))) ∧
      Direct (ip.summand p cycles) (p.nCommittedPerVirtual + 1) [] rs ps
  output : ∀ rs : List C, ip.expectedOutputClaim p (fun i => ip.ra p cycles i (intoPoint rs.reverse)) rs =
    ip.summand p cycles (intoPoint rs.reverse)
  product : ∀ phases, phases = 8 ∨ phases = 16 → ∀ t < p.nVirtualRaPolys, ∀ lookupIndex,
    InstructionRaParams.readRafRa phases p ip.rAddress t lookupIndex =
      .some (∏ j ∈ range p.nCommittedPerVirtual,
        (eqAt (coordinates F (ip.addressChunk p (t * p.nCommittedPerVirtual + j)))
          (p.chunk p.instructionD (t * p.nCommittedPerVirtual + j) lookupIndex) : F))

/-- The memory's sumcheck is the direct one, and its polynomials multiply to the virtual one. -/
structure RamRaExact (F : Type) [JoltField F] [Challenge C F] [DecidableEq F] (rp : RamRaVirtualParams C)
    (p : OneHotParams) (cycles : List CycleWitness) (rAddress : List C) : Prop where
  construct : RamRaVirtualParams.new p cycles.length (rAddress ++ rp.rCycle) = .some rp
  input : rp.virtualRa cycles rAddress (coordinates F rp.rCycle) = cubeSum (rp.summand p cycles) rp.rCycle.length []
  run : ∀ rs : List C, rs.length = rp.rCycle.length →
    ∃ ps : List (UniPoly F), rp.run p cycles (cubeSum (rp.summand p cycles) rp.rCycle.length []) rs =
        .some (ps, rp.summand p cycles (intoPoint rs.reverse), tableOf rp.d fun i =>
          (rp.rAddressChunks.getD i [] ++ rs.reverse, rp.ra p cycles i (intoPoint rs.reverse))) ∧
      Direct (rp.summand p cycles) (rp.d + 1) [] rs ps
  output : ∀ rs : List C, rp.expectedOutputClaim (fun i => rp.ra p cycles i (intoPoint rs.reverse)) rs =
    (rp.summand p cycles (intoPoint rs.reverse) : F)
  product : ∀ c ∈ cycles, ∏ i ∈ range rp.d, (((c.ramAddress.map (p.chunk p.ramD i)).map fun k =>
      (eqAt (coordinates F (rp.rAddressChunks.getD i [])) k : F)).getD 0) =
    ((c.ramAddress.map fun a => (EqPolynomial.evals rAddress : List F).getD a 0).getD 0)

end Both

/-- **The virtualizations are direct sumchecks** for every accepted configuration with a kernel, every
trace of eight cycles or more and every point with no cycle coordinate equal to one, the memory
having two chunks or more and the batching challenge being zero for one polynomial at most. -/
theorem ra_virtualization_exact {C : Type} [Challenge C Fr] [Zero C] (hzero : (Challenge.into (0 : C) : Fr) = 0)
    {p : OneHotParams} {cycles : List CycleWitness} (hcycles : 8 ≤ cycles.length) {ip : InstructionRaParams Fr C}
    (hip : ip.WellFormed p cycles) (hkernel : InstructionRaParams.HasKernel p)
    (hgamma : ip.gamma ≠ 0 ∨ p.nVirtualRaPolys = 1) {rp : RamRaVirtualParams C} {rAddress : List C}
    (hrp : rp.WellFormed p cycles rAddress) (hfactors : 2 ≤ rp.d) (hsize : p.ramLogK < 64)
    (hpoint : ∀ c ∈ ip.rCycle ++ rp.rCycle, (Challenge.into c : Fr) ≠ 1) :
    InstructionRaExact ip p cycles ∧ RamRaExact Fr rp p cycles rAddress := by
  have hvars {n : Nat} (h : cycles.length = 2 ^ n) : 3 ≤ n := by
    by_contra hlt
    have : 2 ^ n ≤ 2 ^ 2 := Nat.pow_le_pow_right (by decide) (by omega)
    omega
  have hone : ∀ c ∈ ip.rCycle ++ rp.rCycle, (1 : Fr) - Challenge.into c ≠ 0 :=
    fun c hc => sub_ne_zero.mpr (hpoint c hc).symm
  have hd : rp.d ≤ p.ramLogK + p.logKChunk - 1 := by
    rw [hrp.d]
    exact Nat.div_le_self ..
  have hir : ip.Rounds p := {
    rounds := hvars hip.trace
    kernel := hkernel
    point := fun c hc => hone c (List.mem_append_left _ hc)
    char := fun k hk hlt => natCast_ne_zero_of_lt hk (by
      rcases hkernel with hM | hM | hM
      · omega
      · omega
      · omega) }
  have hrr : rp.Rounds Fr := {
    rounds := hvars hrp.trace
    factors := hfactors
    point := fun c hc => hone c (List.mem_append_right _ hc)
    char := fun k hk hlt => natCast_ne_zero_of_lt hk (by
      have := hrp.chunk
      omega) }
  exact ⟨{
    construct := hip.new_eq
    input := fun _ hphases _ => hip.inputClaim_eq hkernel hphases
    run := fun _ => hip.run_eq hir hgamma
    output := InstructionRaParams.expectedOutputClaim_eq
    product := fun _ hphases _ => hip.readRafRa_product hkernel hphases }, {
    construct := hrp.new_eq
    input := hrp.inputClaim_eq hzero (by omega)
    run := fun _ => hrp.run_eq hzero hrr
    output := RamRaVirtualParams.expectedOutputClaim_eq
    product := fun c hc => hrp.prod_ra hzero (by omega) (hrp.below c hc) }⟩

/-- Eight cycles, one of them with an access. -/
def eightCycles : List CycleWitness := ⟨0, 0, 5, 0, .some 1⟩ :: List.replicate 7 .noOp

/-- The instructions' sumcheck at a point of zeros. -/
def zeroInstruction (gamma : Fr) : InstructionRaParams Fr Fr := ⟨[0, 0, 0], List.replicate 128 0, gamma⟩

theorem zeroInstruction_wellFormed (gamma : Fr) {p : OneHotParams}
    (h : OneHotConfig.validate ⟨p.logKChunk, p.lookupsRaVirtualLogKChunk⟩ = true) :
    (zeroInstruction gamma).WellFormed p eightCycles := ⟨h, rfl, rfl⟩

/-- The configuration with chunks of four bits, for addresses of the given length. -/
def fourBits (ramLogK : Nat) : OneHotParams := ⟨4, 16, 5, ramLogK⟩

/-- The memory's sumcheck at a point. -/
def memoryAt {F : Type} [JoltField F] (rCycle rAddress : List F) : RamRaVirtualParams F where
  rCycle := rCycle
  rAddressChunks := (fourBits rAddress.length).computeRAddressChunks rAddress
  d := (fourBits rAddress.length).ramD
  logT := rCycle.length

theorem memoryAt_wellFormed {F : Type} [JoltField F] (rCycle rAddress : List F) {cycles : List CycleWitness}
    (hlength : cycles.length = 2 ^ rCycle.length) (hpos : 0 < rAddress.length)
    (hbelow : ∀ c ∈ cycles, c.ramAddress ∈ [.none, .some 1]) :
    (memoryAt rCycle rAddress).WellFormed (fourBits rAddress.length) cycles rAddress := by
  refine ⟨.inl rfl, rfl, rfl, rfl, rfl, hlength, fun c hc a ha => ?_⟩
  have hmem := hbelow c hc
  rw [ha] at hmem
  have hone : a = 1 := by simpa using hmem
  rw [hone]
  exact Nat.one_lt_two_pow (show rAddress.length ≠ 0 by omega)

theorem ra_virtualization_exact_eight :
    @InstructionRaExact Fr Fr _ ⟨id⟩ _ _ (zeroInstruction 1) (fourBits 6) eightCycles ∧
      @RamRaExact Fr _ Fr _ ⟨id⟩ _ (memoryAt [0, 0, 0] [0, 0, 0, 0, 0, 0]) (fourBits 6) eightCycles
        [0, 0, 0, 0, 0, 0] := by
  refine @ra_virtualization_exact Fr ⟨id⟩ _ rfl (fourBits 6) eightCycles (by decide) (zeroInstruction 1)
    (zeroInstruction_wellFormed 1 (by decide)) (.inl (by decide)) (.inl one_ne_zero)
    (memoryAt [0, 0, 0] [0, 0, 0, 0, 0, 0]) [0, 0, 0, 0, 0, 0]
    (memoryAt_wellFormed _ _ rfl (by decide) (by decide)) (by decide) (by decide) ?_
  intro c hc
  have hzero : c = 0 := by simpa [zeroInstruction, memoryAt] using hc
  rw [hzero]
  exact zero_ne_one

theorem computeMessage_without_kernel (s : RaState Fr Fr) (previousClaim : Fr) :
    @InstructionRaParams.computeMessage Fr Fr _ ⟨id⟩ ⟨8, 16, 5, 6⟩ _ s previousClaim = .none := rfl

/-- **Outside of these the sumchecks fail**: two factors have no kernel, a challenge of zero is divided
by, a coordinate equal to one is, over four cycles the rows are not materialized, and over one chunk
the coefficient at infinity is read as the value at one. -/
theorem ra_virtualization_fails :
    ((zeroInstruction 1).WellFormed ⟨8, 16, 5, 6⟩ eightCycles ∧
      ¬ @InstructionRaExact Fr Fr _ ⟨id⟩ _ _ (zeroInstruction 1) ⟨8, 16, 5, 6⟩ eightCycles) ∧
    ((zeroInstruction 0).WellFormed (fourBits 6) eightCycles ∧
      ¬ @InstructionRaExact Fr Fr _ ⟨id⟩ _ _ (zeroInstruction 0) (fourBits 6) eightCycles) ∧
    ((@memoryAt (ZMod 7) _ [0, 0, 1] [0, 0, 0, 0, 0, 0]).WellFormed (fourBits 6) eightCycles [0, 0, 0, 0, 0, 0] ∧
      ¬ @RamRaExact (ZMod 7) _ (ZMod 7) _ ⟨id⟩ _ (memoryAt [0, 0, 1] [0, 0, 0, 0, 0, 0]) (fourBits 6) eightCycles
        [0, 0, 0, 0, 0, 0]) ∧
    ((@memoryAt (ZMod 7) _ [0, 0] [0, 0, 0, 0, 0, 0]).WellFormed (fourBits 6) (List.replicate 4 .noOp) [0, 0, 0, 0, 0, 0] ∧
      ¬ @RamRaExact (ZMod 7) _ (ZMod 7) _ ⟨id⟩ _ (memoryAt [0, 0] [0, 0, 0, 0, 0, 0]) (fourBits 6)
        (List.replicate 4 .noOp) [0, 0, 0, 0, 0, 0]) ∧
    ((@memoryAt (ZMod 7) _ [0, 0, 3] [0, 0, 0, 2]).WellFormed (fourBits 4) eightCycles [0, 0, 0, 2] ∧
      ¬ @RamRaExact (ZMod 7) _ (ZMod 7) _ ⟨id⟩ _ (memoryAt [0, 0, 3] [0, 0, 0, 2]) (fourBits 4) eightCycles
        [0, 0, 0, 2]) := by
  refine ⟨⟨zeroInstruction_wellFormed 1 (by decide), fun h => ?_⟩,
    ⟨zeroInstruction_wellFormed 0 (by decide), fun h => ?_⟩,
    ⟨memoryAt_wellFormed _ _ rfl (by decide) (by decide), fun h => ?_⟩,
    ⟨memoryAt_wellFormed _ _ rfl (by decide) (by decide), fun h => ?_⟩,
    ⟨memoryAt_wellFormed _ _ rfl (by decide) (by decide), fun h => ?_⟩⟩
  · obtain ⟨ps, hrun, -⟩ := h.run [0, 0, 0] rfl
    rw [InstructionRaParams.run, Option.bind_eq_bind] at hrun
    obtain ⟨s, -, hrun⟩ := Option.bind_eq_some_iff.mp hrun
    rw [Option.bind_eq_bind] at hrun
    obtain ⟨last, hrounds, -⟩ := Option.bind_eq_some_iff.mp hrun
    rw [FallibleProver.rounds, Option.bind_eq_bind] at hrounds
    obtain ⟨p, hp, -⟩ := Option.bind_eq_some_iff.mp hrounds
    exact absurd (hp.symm.trans (computeMessage_without_kernel _ _)) (Option.some_ne_none _)
  · have hwf := zeroInstruction_wellFormed 0 (p := fourBits 6) (by decide)
    obtain ⟨ps, hrun, -⟩ := h.run [0, 0, 0] rfl
    rw [InstructionRaParams.run, Option.bind_eq_bind] at hrun
    obtain ⟨s, -, hrun⟩ := Option.bind_eq_some_iff.mp hrun
    rw [Option.bind_eq_bind] at hrun
    obtain ⟨⟨ps', s', last⟩, -, hrun⟩ := Option.bind_eq_some_iff.mp hrun
    simp only [Option.bind_eq_bind] at hrun
    obtain ⟨openings, hopenings, -⟩ := Option.bind_eq_some_iff.mp hrun
    rw [InstructionRaParams.cacheOpenings, hwf.chunks_eq, zipIdx_tableOf] at hopenings
    have hfifth := congrArg (·[4]?) (map_eq_of_mapM hopenings)
    simp only [List.getElem?_map, getElem?_tableOf (show 4 < (fourBits 6).instructionD by decide),
      Option.map_some] at hfifth
    obtain ⟨opening, -, hsome⟩ := Option.map_eq_some_iff.mp hfifth.symm
    have hscale : (zeroInstruction 0).scalingFactor (fourBits 6) 4 = .some 0 := by decide
    have hsome := hsome.symm
    rw [hscale, Option.bind_eq_bind] at hsome
    obtain ⟨claim, -, hsome⟩ := Option.bind_eq_some_iff.mp hsome
    obtain ⟨quotient, hquotient, -⟩ := Option.bind_eq_some_iff.mp hsome
    have hdivide : GruenSplitEqPolynomial.divide claim 0 = .none := by
      rw [GruenSplitEqPolynomial.divide, inverse, if_pos rfl]
      rfl
    exact absurd (hdivide.symm.trans hquotient) (Option.some_ne_none _).symm
  · obtain ⟨ps, hrun, -⟩ := h.run [2, 3, 4] rfl
    have hsome := congrArg Option.isSome hrun
    rw [Option.isSome_some] at hsome
    revert hsome
    decide
  · obtain ⟨ps, hrun, -⟩ := h.run [2, 3] rfl
    have hsome := congrArg Option.isSome hrun
    rw [Option.isSome_some] at hsome
    revert hsome
    decide
  · obtain ⟨ps, hrun, -⟩ := h.run [2, 3, 4] rfl
    have hlast := congrArg (Option.map (·.2.1)) hrun
    simp only [Option.map_some] at hlast
    revert hlast
    decide +kernel

end LightningJolt
