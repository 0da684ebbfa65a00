/-
The nodes of the univariate skip outside its base window
(`jolt-core/src/subprotocols/univariate_skip.rs`), and the integer weights that
carry values on the window to such a node
(`jolt-core/src/poly/lagrange_poly.rs`, `jolt-core/src/zkvm/r1cs/evaluation.rs`).
-/
import Mathlib.Algebra.Polynomial.Eval.Degree
import Mathlib.Data.Rat.Cast.CharZero
import Mathlib.Algebra.BigOperators.Group.List.Basic

namespace LightningJolt

/-! ## The nodes -/

/-- The loop that takes a node on either side, while both sides have one; it
returns the nodes, where either side stands, and how many nodes are left. -/
def targetsBoth (extLeft extRight : Int) : Nat → Int → Int → List Int × Int × Int × Nat
  | 0, n, p => ([], n, p, 0)
  | 1, n, p => if extLeft ≤ n ∧ p ≤ extRight then ([n], n, p, 0) else ([], n, p, 1)
  | left + 2, n, p =>
    if extLeft ≤ n ∧ p ≤ extRight then
      let (targets, rest) := targetsBoth extLeft extRight left (n - 1) (p + 1)
      (n :: p :: targets, rest)
    else ([], n, p, left + 2)

/-- The loop over what the left side still has. -/
def targetsLeft (extLeft : Int) : Nat → Int → List Int
  | 0, _ => []
  | left + 1, n => if extLeft ≤ n then n :: targetsLeft extLeft left (n - 1) else []

/-- The loop over what the right side still has. -/
def targetsRight (extRight : Int) : Nat → Int → List Int
  | 0, _ => []
  | left + 1, p => if p ≤ extRight then p :: targetsRight extRight left (p + 1) else []

/-- The first node of a window of consecutive integers about zero. -/
def baseLeft (domainSize : Nat) : Int := -(((domainSize : Int) - 1).tdiv 2)

/-- `uniskip_targets`; a place the loops leave alone is zero. -/
def uniskipTargets (domainSize degree : Nat) : List Int :=
  let baseRight := baseLeft domainSize + domainSize - 1
  let (both, n, p, left) := targetsBoth (-degree) degree degree (baseLeft domainSize - 1) (baseRight + 1)
  let lefts := targetsLeft (-degree) left n
  let rights := targetsRight degree (left - lefts.length) p
  both ++ lefts ++ rights ++ List.replicate (left - lefts.length - rights.length) 0

/-! ## The weights -/

/-- The value an `i32` holds after a cast or a wrapping sum. -/
def i32 (v : Int) : Int := Int.bmod v (2 ^ 32)

/-- The loop over the numerator and the denominator of a binomial. -/
def binomialLoop (t : Int) (k : Nat) : Int × Int :=
  (List.range k).foldl (fun (num, den) j => (num * (t - j), den * (j + 1))) (1, 1)

/-- `generalized_binomial`. -/
def generalizedBinomial (t : Int) (k : Nat) : Int :=
  if k = 0 then 1
  else if 0 ≤ t then
    if t < k then 0 else (binomialLoop t k).1.tdiv (binomialLoop t k).2
  else
    let sign : Int := if k % 2 = 1 then -1 else 1
    let tt := -t + k - 1
    sign * (binomialLoop tt k).1.tdiv (binomialLoop tt k).2

/-- `shift_coeffs_i32`, of a window of `n` nodes. -/
def shiftCoeffsI32 (n : Nat) (shift : Int) : List Int :=
  (List.range n).map fun i =>
    let s1 := generalizedBinomial shift i
    let s2 := generalizedBinomial (shift - i - 1) (n - 1 - i)
    let sign : Int := if (n - 1 - i) % 2 = 1 then -1 else 1
    i32 (sign * s1 * s2)

/-- The weights to every target of a window of `domainSize` nodes. -/
def coeffsPerTarget (domainSize degree : Nat) : List (List Int) :=
  (uniskipTargets domainSize degree).map fun z => shiftCoeffsI32 domainSize (z - baseLeft domainSize)

def outerUnivariateSkipDegree : Nat := 9
def outerUnivariateSkipDomainSize : Nat := 10
def productVirtualUnivariateSkipDegree : Nat := 2
def productVirtualUnivariateSkipDomainSize : Nat := 3

def uniskipTargetsOuter : List Int := uniskipTargets outerUnivariateSkipDomainSize outerUnivariateSkipDegree

/-- `COEFFS_PER_J`. -/
def coeffsPerJ : List (List Int) := coeffsPerTarget outerUnivariateSkipDomainSize outerUnivariateSkipDegree

/-- `PRODUCT_VIRTUAL_COEFFS_PER_J`. -/
def productVirtualCoeffsPerJ : List (List Int) :=
  coeffsPerTarget productVirtualUnivariateSkipDomainSize productVirtualUnivariateSkipDegree

example : uniskipTargetsOuter = [-5, 6, -6, 7, -7, 8, -8, 9, -9] := by decide

/-! ## What the weights do -/

/-- The sum of values under weights. -/
def weigh (cs : List Int) (vs : List Int) : Int := (List.zipWith (· * ·) cs vs).sum

/-- The sum of the weights' magnitudes. -/
def magnitudes (cs : List Int) : Nat := (cs.map Int.natAbs).sum

theorem weigh_cons (c v : Int) (cs vs : List Int) : weigh (c :: cs) (v :: vs) = c * v + weigh cs vs := by
  simp [weigh]

theorem magnitudes_cons (c : Int) (cs : List Int) : magnitudes (c :: cs) = c.natAbs + magnitudes cs := by
  simp [magnitudes]

theorem natAbs_weigh_le (cs : List Int) {vs : List Int} {bound : Nat} (h : ∀ v ∈ vs, v.natAbs ≤ bound) :
    (weigh cs vs).natAbs ≤ magnitudes cs * bound := by
  induction cs generalizing vs with
  | nil => simp [weigh]
  | cons c cs ih =>
    cases vs with
    | nil => simp [weigh]
    | cons v vs =>
      rw [weigh_cons, magnitudes_cons]
      have hv := h v (List.mem_cons_self ..)
      have hrest := ih fun w hw => h w (List.mem_cons_of_mem _ hw)
      have hprod : (c * v).natAbs ≤ c.natAbs * bound := by
        rw [Int.natAbs_mul]
        exact Nat.mul_le_mul_left _ hv
      calc (c * v + weigh cs vs).natAbs ≤ (c * v).natAbs + (weigh cs vs).natAbs := Int.natAbs_add_le _ _
        _ ≤ c.natAbs * bound + magnitudes cs * bound := Nat.add_le_add hprod hrest
        _ = (c.natAbs + magnitudes cs) * bound := by ring

/-- Weights on the nodes from `left` up carry values to `target`: they have
the moments of a value there. -/
def Carries (n : Nat) (cs : List Int) (left target : Int) : Prop :=
  cs.length = n ∧ ∀ k < n, weigh cs ((List.range n).map fun i : Nat => (left + (i : Int)) ^ k) = target ^ k

instance {n : Nat} {cs : List Int} {left target : Int} : Decidable (Carries n cs left target) := by
  unfold Carries
  infer_instance

theorem weigh_eq_sum {n : Nat} {cs vs : List Int} (hcs : cs.length = n) (hvs : vs.length ≤ n) :
    weigh cs vs = ∑ i ∈ Finset.range n, cs.getD i 0 * vs.getD i 0 := by
  induction n generalizing cs vs with
  | zero =>
    rw [List.length_eq_zero_iff.mp hcs]
    simp [weigh]
  | succ n ih =>
    obtain ⟨c, cs, rfl⟩ := List.exists_cons_of_length_eq_add_one hcs
    rw [Finset.sum_range_succ']
    cases vs with
    | nil => simp [weigh]
    | cons v vs =>
      rw [weigh_cons, ih (by simpa using hcs) (by simpa using hvs), add_comm]
      simp

/-- **What carried values are**: the value at the target of a polynomial that
has the values at the nodes, zero where there are none. -/
theorem Carries.eval_eq {n : Nat} {cs vs : List Int} {left target : Int} (h : Carries n cs left target)
    (hlen : vs.length ≤ n) {p : Polynomial ℚ} (hdeg : p.natDegree < n)
    (hvs : ∀ i < n, p.eval ((left + i : Int) : ℚ) = (vs.getD i 0 : Int)) :
    p.eval (target : ℚ) = (weigh cs vs : Int) := by
  obtain ⟨hcs, hmoments⟩ := h
  have hpow : ∀ k < n, (target : ℚ) ^ k =
      ∑ i ∈ Finset.range n, (cs.getD i 0 : ℚ) * ((left + i : Int) : ℚ) ^ k := by
    intro k hk
    have hmoment := hmoments k hk
    rw [weigh_eq_sum hcs (by simp)] at hmoment
    rw [← Int.cast_pow, ← hmoment, Int.cast_sum]
    refine Finset.sum_congr rfl fun i hi => ?_
    have hi : i < n := Finset.mem_range.mp hi
    simp [List.getD_eq_getElem?_getD, hi]
  rw [weigh_eq_sum hcs hlen, Int.cast_sum, Polynomial.eval_eq_sum_range' hdeg]
  calc ∑ k ∈ Finset.range n, p.coeff k * (target : ℚ) ^ k
      = ∑ k ∈ Finset.range n, ∑ i ∈ Finset.range n,
          (cs.getD i 0 : ℚ) * (p.coeff k * ((left + i : Int) : ℚ) ^ k) := by
        refine Finset.sum_congr rfl fun k hk => ?_
        rw [hpow k (Finset.mem_range.mp hk), Finset.mul_sum]
        exact Finset.sum_congr rfl fun i _ => by ring
    _ = ∑ i ∈ Finset.range n, (cs.getD i 0 : ℚ) * p.eval ((left + i : Int) : ℚ) := by
        rw [Finset.sum_comm]
        refine Finset.sum_congr rfl fun i _ => ?_
        rw [Polynomial.eval_eq_sum_range' hdeg, Finset.mul_sum]
    _ = ∑ i ∈ Finset.range n, ((cs.getD i 0 * vs.getD i 0 : Int) : ℚ) := by
        refine Finset.sum_congr rfl fun i hi => ?_
        rw [hvs i (Finset.mem_range.mp hi), Int.cast_mul]

/-- The weights of the outer window carry to their targets, and are small. -/
theorem coeffsPerJ_carries : ∀ j < 9,
    Carries 10 (coeffsPerJ.getD j []) (baseLeft 10) (uniskipTargetsOuter.getD j 0) ∧
      magnitudes (coeffsPerJ.getD j []) < 2 ^ 22 := by
  decide

theorem productVirtualCoeffsPerJ_carries : ∀ j < 2,
    Carries 3 (productVirtualCoeffsPerJ.getD j []) (baseLeft 3) ((uniskipTargets 3 2).getD j 0) ∧
      magnitudes (productVirtualCoeffsPerJ.getD j []) < 2 ^ 22 := by
  decide

end LightningJolt
