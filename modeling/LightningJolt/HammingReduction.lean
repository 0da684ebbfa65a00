/-
The reduction of stage 7: three kinds of claims about the one-hot polynomials, at
points of one cycle part, become a sumcheck over the address bits.
-/
import LightningJolt.StagePoints

namespace LightningJolt

/-! ## The reduction -/

/-- What the reduction reads of one polynomial. -/
structure RaClaims (F C : Type) where
  poly : CommittedPolynomial
  claimHw : F
  claimBool : F
  claimVirt : F
  rAddrVirt : List C

/-- `HammingWeightClaimReductionParams`. -/
structure HammingWeightParams (F C : Type) where
  gamma : F
  rCycle : List C
  rAddrBool : List C
  claims : List (RaClaims F C)

/-- The virtualization sumcheck of a one-hot polynomial. -/
def virtSumcheckId : CommittedPolynomial → SumcheckId
  | .InstructionRa _ => .InstructionRaVirtualization
  | .BytecodeRa _ => .BytecodeReadRaf
  | _ => .RamRaVirtualization

section Params

variable {F C : Type} [JoltField F] [Challenge C F]

/-- A point of challenges as field elements. -/
def intoPoint (point : List C) : List F := point.map Challenge.into

namespace HammingWeightParams

/-- The Hamming weight of a polynomial: that of the memory's is an opening, the others' is one. -/
def hwClaim (ramHwFactor : F) : CommittedPolynomial → F
  | .RamRa _ => ramHwFactor
  | _ => 1

omit [Challenge C F] in
/-- `new`, from the points stage 6 recorded and the claims there. -/
def new (p : OneHotParams) (recorded : Recorded C) (claims : OpeningId → Option F) (gamma : F) :
    Option (HammingWeightParams F C) := do
  let unifiedBoolPoint ← recorded.point (.committed (.InstructionRa 0) .Booleanity)
  let ramHwFactor ← claims (.virt .RamHammingWeight .RamHammingBooleanity)
  let each ← p.polynomialTypes.mapM fun poly => do
    let claimBool ← claims (.committed poly .Booleanity)
    let virtPoint ← recorded.point (.committed poly (virtSumcheckId poly))
    let claimVirt ← claims (.committed poly (virtSumcheckId poly))
    .some ⟨poly, hwClaim ramHwFactor poly, claimBool, claimVirt, virtPoint.take p.logKChunk⟩
  .some ⟨gamma, unifiedBoolPoint.drop p.logKChunk, unifiedBoolPoint.take p.logKChunk, each⟩

variable (hp : HammingWeightParams F C)

omit [Challenge C F] in
/-- `input_claim`. -/
def inputClaim : F :=
  (hp.claims.zipIdx.map fun (c, i) =>
    hp.gamma ^ (3 * i) * c.claimHw + hp.gamma ^ (3 * i + 1) * c.claimBool + hp.gamma ^ (3 * i + 2) * c.claimVirt).sum

/-- The factor of a polynomial, at address coordinates. -/
def weight (c : RaClaims F C) (i : Nat) (address : List F) : F :=
  hp.gamma ^ (3 * i) + hp.gamma ^ (3 * i + 1) * eqMle address (intoPoint hp.rAddrBool) +
    hp.gamma ^ (3 * i + 2) * eqMle address (intoPoint c.rAddrVirt)

/-- `expected_output_claim`, of the challenges and the claims at the point of stage 7. -/
def expectedOutputClaim (gClaim : CommittedPolynomial → F) (sumcheckChallenges : List C) : F :=
  (hp.claims.zipIdx.map fun (c, i) =>
    gClaim c.poly * hp.weight c i (intoPoint sumcheckChallenges.reverse)).sum

end HammingWeightParams

end Params

/-! ## Sums over the cube -/

section Sums

variable {F : Type} [JoltField F]

/-- A sum over the Boolean points. -/
def sumCube (n : Nat) (f : List F → F) : F := ((cube n).map f).sum

theorem sum_map_swap {α β : Type} (xs : List α) (ys : List β) (f : α → β → F) :
    (xs.map fun x => (ys.map fun y => f x y).sum).sum = (ys.map fun y => (xs.map fun x => f x y).sum).sum := by
  induction xs with
  | nil => simp
  | cons x xs ih => simp only [List.map_cons, List.sum_cons, ih, List.sum_map_add]

theorem sumCube_swap {m n : Nat} (f : List F → List F → F) :
    sumCube m (fun k => sumCube n fun j => f k j) = sumCube n fun j => sumCube m fun k => f k j :=
  sum_map_swap (cube m) (cube n) f

theorem sumCube_add {n : Nat} (f g : List F → F) : sumCube n (fun k => f k + g k) = sumCube n f + sumCube n g :=
  List.sum_map_add

theorem mul_sumCube {n : Nat} (c : F) (f : List F → F) : c * sumCube n f = sumCube n fun k => c * f k := by
  rw [sumCube, sumCube, List.sum_map_mul_left]

theorem sumCube_congr {n : Nat} {f g : List F → F} (h : ∀ k ∈ cube n, f k = g k) : sumCube n f = sumCube n g := by
  rw [sumCube, sumCube, List.map_congr_left h]

theorem sumCube_eqMle {n : Nat} {w : List F} (hw : w.length = n) : sumCube n (eqMle w) = 1 := by
  rw [sumCube, ← hw, ← eqTable_eq]
  exact sum_eqTable w

omit [JoltField F] in
theorem eqMle_comm {F : Type} [CommRing F] (w x : List F) : eqMle w x = eqMle x w := by
  rw [eqMle, eqMle, List.zipWith_comm]
  congr 2
  funext a b
  rw [eqFactor, eqFactor]
  ring

theorem sumCube_succ {n : Nat} (f : List F → F) :
    sumCube (n + 1) f = sumCube n (fun k => f (0 :: k)) + sumCube n fun k => f (1 :: k) := by
  rw [sumCube, cube, List.map_append, List.sum_append, List.map_map, List.map_map]
  rfl

/-- At a Boolean point the multilinear extension is the value there. -/
theorem sumCube_eqMle_mul {n : Nat} {x : List F} (hx : x ∈ cube n) (f : List F → F) :
    sumCube n (fun k => eqMle x k * f k) = f x := by
  induction n generalizing x f with
  | zero =>
    rw [cube, List.mem_singleton] at hx
    simp [sumCube, cube, hx, eqMle]
  | succ n ih =>
    have hcons (b c : F) (y k : List F) : eqMle (b :: y) (c :: k) = eqFactor b c * eqMle y k := by
      rw [eqMle, List.zipWith_cons_cons, List.prod_cons]
      rfl
    rw [cube, List.mem_append, List.mem_map, List.mem_map] at hx
    rcases hx with ⟨y, hy, rfl⟩ | ⟨y, hy, rfl⟩
    · rw [sumCube_succ]
      simp only [hcons, eqFactor, mul_assoc, ← mul_sumCube]
      rw [ih hy]
      ring
    · rw [sumCube_succ]
      simp only [hcons, eqFactor, mul_assoc, ← mul_sumCube]
      rw [ih hy fun k => f (0 :: k), ih hy fun k => f (1 :: k)]
      ring

end Sums

/-! ## True claims -/

section Truth

variable {F C : Type} [JoltField F] [Challenge C F]

/-- The one-hot polynomials by their values at Boolean address and cycle coordinates. -/
structure OneHotPolys (F : Type) [JoltField F] (p : OneHotParams) (logT : Nat) where
  value : CommittedPolynomial → List F → List F → F
  ramHammingWeight : List F → F
  one : ∀ poly ∈ p.polynomialTypes, (∀ i, poly ≠ .RamRa i) → ∀ j ∈ cube logT,
    sumCube p.logKChunk (fun k => value poly k j) = 1
  ram : ∀ i, .RamRa i ∈ p.polynomialTypes → ∀ j ∈ cube logT,
    sumCube p.logKChunk (fun k => value (.RamRa i) k j) = ramHammingWeight j

namespace OneHotPolys

variable {p : OneHotParams} {logT : Nat} (ra : OneHotPolys F p logT)

/-- A polynomial at Boolean address coordinates and a cycle point. -/
def atCycle (poly : CommittedPolynomial) (cycle k : List F) : F :=
  sumCube logT fun j => eqMle cycle j * ra.value poly k j

/-- A polynomial at a point. -/
def eval (poly : CommittedPolynomial) (address cycle : List F) : F :=
  sumCube p.logKChunk fun k => eqMle address k * ra.atCycle poly cycle k

/-- The memory's Hamming weight at a cycle point. -/
def hammingEval (cycle : List F) : F := sumCube logT fun j => eqMle cycle j * ra.ramHammingWeight j

/-- A Hamming weight claim is a sum over the addresses. -/
theorem hwClaim_eq {poly : CommittedPolynomial} (hpoly : poly ∈ p.polynomialTypes) {cycle : List F}
    (hcycle : cycle.length = logT) :
    HammingWeightParams.hwClaim (ra.hammingEval cycle) poly = sumCube p.logKChunk (ra.atCycle poly cycle) := by
  have hswap : sumCube p.logKChunk (ra.atCycle poly cycle) =
      sumCube logT fun j => eqMle cycle j * sumCube p.logKChunk fun k => ra.value poly k j := by
    have h := sumCube_swap (m := p.logKChunk) (n := logT) fun k j => eqMle cycle j * ra.value poly k j
    simp only [← mul_sumCube] at h
    exact h
  have hone (h : ∀ i, poly ≠ .RamRa i) : sumCube p.logKChunk (ra.atCycle poly cycle) = 1 := by
    rw [hswap, ← sumCube_eqMle hcycle]
    refine sumCube_congr fun j hj => ?_
    rw [ra.one poly hpoly h j hj, mul_one]
  cases poly with
  | RamRa i =>
    rw [hswap, HammingWeightParams.hwClaim, hammingEval]
    refine sumCube_congr fun j hj => ?_
    rw [ra.ram i hpoly j hj]
  | RdInc => exact (hone nofun).symm
  | RamInc => exact (hone nofun).symm
  | InstructionRa i => exact (hone nofun).symm
  | BytecodeRa i => exact (hone nofun).symm
  | TrustedAdvice => exact (hone nofun).symm
  | UntrustedAdvice => exact (hone nofun).symm

end OneHotPolys

variable {p : OneHotParams} {logT : Nat} (ra : OneHotPolys F p logT) (hp : HammingWeightParams F C)

/-- The three claims of a polynomial are true at one cycle point. -/
structure RaClaims.TrueAt (c : RaClaims F C) (rAddrBool : List F) (cycle : List F) : Prop where
  hw : c.claimHw = sumCube p.logKChunk (ra.atCycle c.poly cycle)
  bool : c.claimBool = ra.eval c.poly rAddrBool cycle
  virt : c.claimVirt = ra.eval c.poly (intoPoint c.rAddrVirt) cycle

/-- The polynomial that the sumcheck of stage 7 sums, at address coordinates. -/
def summand (address : List F) : F :=
  (hp.claims.zipIdx.map fun (c, i) =>
    ra.eval c.poly address (intoPoint hp.rCycle) * hp.weight c i address).sum

/-- **The input claim is the sum over the addresses**, the claims at one cycle point being true. -/
theorem inputClaim_eq
    (h : ∀ c ∈ hp.claims, c.TrueAt ra (intoPoint hp.rAddrBool) (intoPoint hp.rCycle)) :
    hp.inputClaim = sumCube p.logKChunk (summand ra hp) := by
  have hswap : sumCube p.logKChunk (summand ra hp) = (hp.claims.zipIdx.map fun ci =>
      sumCube p.logKChunk fun k => ra.eval ci.1.poly k (intoPoint hp.rCycle) * hp.weight ci.1 ci.2 k).sum :=
    sum_map_swap (cube p.logKChunk) hp.claims.zipIdx fun k ci =>
      ra.eval ci.1.poly k (intoPoint hp.rCycle) * hp.weight ci.1 ci.2 k
  rw [hswap, HammingWeightParams.inputClaim]
  congr 1
  refine List.map_congr_left fun ci hci => ?_
  obtain ⟨c, i⟩ := ci
  obtain ⟨hhw, hbool, hvirt⟩ := h c (List.fst_mem_of_mem_zipIdx hci)
  simp only
  have hsum : sumCube p.logKChunk (fun k => ra.eval c.poly k (intoPoint hp.rCycle) * hp.weight c i k) =
      sumCube p.logKChunk fun k =>
        hp.gamma ^ (3 * i) * ra.atCycle c.poly (intoPoint hp.rCycle) k +
          hp.gamma ^ (3 * i + 1) * (eqMle (intoPoint hp.rAddrBool) k * ra.atCycle c.poly (intoPoint hp.rCycle) k) +
          hp.gamma ^ (3 * i + 2) * (eqMle (intoPoint c.rAddrVirt) k * ra.atCycle c.poly (intoPoint hp.rCycle) k) := by
    refine sumCube_congr fun k hk => ?_
    rw [OneHotPolys.eval, sumCube_eqMle_mul hk, HammingWeightParams.weight, eqMle_comm k, eqMle_comm k]
    ring
  rw [hsum, sumCube_add, sumCube_add, ← mul_sumCube, ← mul_sumCube, ← mul_sumCube, hhw, hbool, hvirt]
  rfl

/-- What the verifier expects in the end is the same polynomial, at its challenges. -/
theorem expectedOutputClaim_eq {gClaim : CommittedPolynomial → F} {sumcheckChallenges : List C}
    (h : ∀ c ∈ hp.claims, gClaim c.poly =
      ra.eval c.poly (intoPoint sumcheckChallenges.reverse) (intoPoint hp.rCycle)) :
    hp.expectedOutputClaim gClaim sumcheckChallenges = summand ra hp (intoPoint sumcheckChallenges.reverse) := by
  rw [HammingWeightParams.expectedOutputClaim, summand]
  congr 1
  refine List.map_congr_left fun ci hci => ?_
  obtain ⟨c, i⟩ := ci
  simp only
  rw [h c (List.fst_mem_of_mem_zipIdx hci)]

end Truth

end LightningJolt
