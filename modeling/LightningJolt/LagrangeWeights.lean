/-
Lagrange weights over consecutive nodes, of the Rust verifier
(`jolt-core/src/poly/lagrange_poly.rs`) and of the contract
(`onchain-verifier/contracts/R1CSEvaluator.sol`): the weights at a point are the
same ten field elements.
-/
import LightningJolt.Interpolation
import LightningJolt.OnChainSumcheck

namespace LightningJolt

/-! ## Products of all entries but one -/

section Products

variable {M : Type}

/-- The loop over the products of the entries before each. -/
def prefixProducts (mul : M → M → M) : M → List M → List M
  | _, [] => []
  | acc, d :: ds => acc :: prefixProducts mul (mul acc d) ds

/-- The loop, from the end, over the products of the entries behind each. -/
def suffixProducts (mul : M → M → M) (one : M) : List M → List M
  | [] => []
  | [_] => [one]
  | _ :: d :: ds =>
    let suffix := suffixProducts mul one (d :: ds)
    mul (suffix.headD one) d :: suffix

/-- A map that respects the products respects the loops. -/
theorem map_prefixProducts {N : Type} {mul : M → M → M} {mul' : N → N → N} {f : M → N}
    (h : ∀ a b, f (mul a b) = mul' (f a) (f b)) (acc : M) (ds : List M) :
    (prefixProducts mul acc ds).map f = prefixProducts mul' (f acc) (ds.map f) := by
  induction ds generalizing acc with
  | nil => rfl
  | cons d ds ih =>
    rw [prefixProducts, List.map_cons, ih, h]
    rfl

theorem map_suffixProducts {N : Type} {mul : M → M → M} {mul' : N → N → N} {f : M → N}
    (h : ∀ a b, f (mul a b) = mul' (f a) (f b)) (one : M) :
    ∀ ds : List M, (suffixProducts mul one ds).map f = suffixProducts mul' (f one) (ds.map f)
  | [] => rfl
  | [_] => rfl
  | d :: d' :: ds => by
    have ih := map_suffixProducts h one (d' :: ds)
    have hhead : f ((suffixProducts mul one (d' :: ds)).headD one) =
        (suffixProducts mul' (f one) ((d' :: ds).map f)).headD (f one) := by
      rw [← ih]
      cases suffixProducts mul one (d' :: ds) <;> rfl
    simp only [suffixProducts, List.map_cons, h, hhead] at ih ⊢
    rw [ih]

variable {F : Type} [Field F]

/-- The products of the other entries, times `acc`. -/
def otherProducts : F → List F → List F
  | _, [] => []
  | acc, d :: ds => acc * ds.prod :: otherProducts (acc * d) ds

theorem suffixProducts_cons (d : F) (ds : List F) :
    suffixProducts (· * ·) 1 (d :: ds) = ds.prod :: suffixProducts (· * ·) 1 ds := by
  induction ds generalizing d with
  | nil => rfl
  | cons d' ds ih =>
    rw [suffixProducts, ih d']
    simp only [List.headD_cons, List.prod_cons, mul_comm]

theorem zipWith_products (acc : F) (ds : List F) :
    List.zipWith (· * ·) (prefixProducts (· * ·) acc ds) (suffixProducts (· * ·) 1 ds) =
      otherProducts acc ds := by
  induction ds generalizing acc with
  | nil => rfl
  | cons d ds ih => rw [prefixProducts, suffixProducts_cons, List.zipWith_cons_cons, ih, otherProducts]

theorem length_otherProducts (acc : F) (ds : List F) : (otherProducts acc ds).length = ds.length := by
  induction ds generalizing acc with
  | nil => rfl
  | cons d ds ih => rw [otherProducts, List.length_cons, ih, List.length_cons]

/-- Without a zero, the product of the others is that of all over the entry. -/
theorem otherProducts_eq {ds : List F} (h : ∀ d ∈ ds, d ≠ 0) (acc : F) :
    otherProducts acc ds = ds.map fun d => acc * ds.prod * d⁻¹ := by
  suffices hgen : ∀ (acc total : F), acc * ds.prod = total →
      otherProducts acc ds = ds.map fun d => total * d⁻¹ from hgen acc _ rfl
  induction ds with
  | nil => exact fun _ _ _ => rfl
  | cons d ds ih =>
    obtain ⟨hd, hds⟩ := List.forall_mem_cons.mp h
    intro acc total htotal
    rw [List.prod_cons] at htotal
    rw [otherProducts, List.map_cons, ih hds (acc * d) total (by rw [← htotal]; ring)]
    congr 1
    rw [← htotal]
    field_simp

theorem getElem_otherProducts (acc : F) (ds : List F) {j : Nat}
    (hj : j < (otherProducts acc ds).length) :
    (otherProducts acc ds)[j] = acc * (ds.take j).prod * (ds.drop (j + 1)).prod := by
  induction ds generalizing acc j with
  | nil => exact absurd hj (by simp [otherProducts])
  | cons d ds ih =>
    cases j with
    | zero => simp [otherProducts]
    | succ j =>
      simp only [otherProducts, List.getElem_cons_succ, List.take_succ_cons, List.prod_cons,
        List.drop_succ_cons]
      rw [ih]
      ring

/-- A zero elsewhere makes the product vanish. -/
theorem otherProducts_eq_zero {ds : List F} {j k : Nat} (hk : k < ds.length) (hzero : ds[k] = 0)
    (hne : j ≠ k) (acc : F) (hj : j < (otherProducts acc ds).length) :
    (otherProducts acc ds)[j] = 0 := by
  rw [getElem_otherProducts]
  rcases Nat.lt_or_gt_of_ne hne with hlt | hgt
  · have hmem : (0 : F) ∈ ds.drop (j + 1) := by
      rw [← hzero, List.mem_drop_iff_getElem]
      exact ⟨k - (j + 1), by omega, by simp only [show j + 1 + (k - (j + 1)) = k by omega]⟩
    rw [List.prod_eq_zero hmem, mul_zero]
  · have hmem : (0 : F) ∈ ds.take j := by
      rw [← hzero, List.mem_take_iff_getElem]
      exact ⟨k, by omega, rfl⟩
    rw [List.prod_eq_zero hmem, mul_zero, zero_mul]

end Products

/-! ## The Rust weights -/

section Rust

variable {F : Type} [JoltField F] [DecidableEq F]

/-- The inverses of all entries, by one inversion. -/
def batchInverse (ds : List F) : Option (List F) := do
  let invProd ← inverse ds.prod
  .some ((List.zipWith (· * ·) (prefixProducts (· * ·) 1 ds) (suffixProducts (· * ·) 1 ds)).map
    (· * invProd))

theorem batchInverse_eq {ds : List F} (h : ∀ d ∈ ds, d ≠ 0) :
    batchInverse ds = .some (ds.map (·⁻¹)) := by
  have hprod : ds.prod ≠ 0 := fun hzero => h 0 (List.prod_eq_zero_iff.mp hzero) rfl
  rw [batchInverse, inverse, if_neg hprod, zipWith_products, otherProducts_eq h]
  change Option.some ((ds.map fun d => 1 * ds.prod * d⁻¹).map (· * ds.prod⁻¹)) = _
  rw [List.map_map]
  refine congrArg _ (List.map_congr_left fun d _ => ?_)
  rw [Function.comp_apply, one_mul, mul_right_comm, mul_inv_cancel₀ hprod, one_mul]

namespace LagrangePolynomial

/-- `start_i64`, of `n` nodes. -/
def start (n : Nat) : Int := -(((n - 1) / 2 : Nat) : Int)

/-- The loop of `distances` over the nodes. -/
def distancesFrom : Nat → F → List F
  | 0, _ => []
  | n + 1, base => base :: distancesFrom n (base - 1)

def distances (n : Nat) (r : F) : List F := distancesFrom n (r - (start n : F))

/-- The node that the point is, the last one the loop of `distances` finds. -/
def hit : Nat → Option Nat → List F → Option Nat
  | _, found, [] => found
  | i, found, d :: ds => hit (i + 1) (if d = 0 then .some i else found) ds

/-- `den_row_i64`. -/
def denRow (n : Nat) : List Int :=
  (List.range n).map fun i =>
    if (n - 1 - i) % 2 = 1 then -((i.factorial * (n - 1 - i).factorial : Nat) : Int)
    else (i.factorial * (n - 1 - i).factorial : Nat)

def invDenom (n : Nat) : Option (List F) := batchInverse (List.map (Int.cast : Int → F) (denRow n))

/-- `bary_terms_from_dists`. -/
def baryTermsFromDists (dists invDenom : List F) : Option (List F × F) := do
  let invDists ← batchInverse dists
  let terms := List.zipWith (· * ·) invDenom invDists
  .some (terms, terms.sum)

/-- `evals`, at a point of the field. -/
def evals (n : Nat) (r : F) : Option (List F) :=
  match hit 0 .none (distances n r) with
  | .some i => .some ((List.range n).map fun k => if k = i then 1 else 0)
  | .none => do
    let invDenom ← invDenom n
    let (terms, sum) ← baryTermsFromDists (distances n r) invDenom
    let invSum ← inverse sum
    .some (terms.map (· * invSum))

/-- The weights: the products of the distances to the other nodes, over the
constants that make them one at their own node. -/
def weights (n : Nat) (r : F) : List F :=
  List.zipWith (· * ·) (otherProducts 1 (distances n r)) (List.map (fun d : Int => (d : F)⁻¹) (denRow n))

omit [DecidableEq F] in
theorem length_distances (n : Nat) (r : F) : (distances n r).length = n := by
  have hfrom : ∀ (n : Nat) (base : F), (distancesFrom n base).length = n := by
    intro n
    induction n with
    | zero => exact fun _ => rfl
    | succ n ih => exact fun base => by rw [distancesFrom, List.length_cons, ih]
  exact hfrom n _

theorem length_denRow (n : Nat) : (denRow n).length = n := by
  rw [denRow, List.length_map, List.length_range]

omit [DecidableEq F] in
theorem length_weights (n : Nat) (r : F) : (weights n r).length = n := by
  rw [weights, List.length_zipWith, length_otherProducts, length_distances, List.length_map,
    length_denRow, min_self]

/-- Where no node is the point, no distance is zero. -/
theorem ne_zero_of_hit_none {ds : List F} {i : Nat} {found : Option Nat}
    (h : hit i found ds = .none) : found = .none ∧ ∀ d ∈ ds, d ≠ 0 := by
  induction ds generalizing i found with
  | nil => exact ⟨h, nofun⟩
  | cons d ds ih =>
    obtain ⟨hfound, hds⟩ := ih h
    split_ifs at hfound with hd
    exact ⟨hfound, List.forall_mem_cons.mpr ⟨hd, hds⟩⟩

theorem getElem_of_hit_some {ds : List F} {i k : Nat} {found : Option Nat}
    (h : hit i found ds = .some k) : found = .some k ∨ ∃ j, ds[j]? = .some 0 ∧ k = i + j := by
  induction ds generalizing i found with
  | nil => exact .inl h
  | cons d ds ih =>
    rcases ih h with hfound | ⟨j, hj, rfl⟩
    · split_ifs at hfound with hd
      · cases hfound
        exact .inr ⟨0, by rw [List.getElem?_cons_zero, hd], rfl⟩
      · exact .inl hfound
    · exact .inr ⟨j + 1, by rw [List.getElem?_cons_succ, hj], by omega⟩

omit [DecidableEq F] in
/-- At a node the weights are those of that node alone. -/
theorem weights_of_hit {n k : Nat} {r : F} (hsum : (weights n r).sum = 1)
    (hk : (distances n r)[k]? = .some 0) :
    weights n r = (List.range n).map fun j => if j = k then 1 else 0 := by
  obtain ⟨hlt, hzero⟩ := List.getElem?_eq_some_iff.mp hk
  have hother : ∀ (j : Nat) (hj : j < (weights n r).length), j ≠ k → (weights n r)[j] = 0 := by
    intro j hj hne
    simp only [weights, List.getElem_zipWith]
    rw [otherProducts_eq_zero hlt hzero hne, zero_mul]
  have hk' : k < (weights n r).length := by
    rw [length_weights]
    rwa [length_distances] at hlt
  have hself : (weights n r)[k] = 1 := by
    rw [← hsum, ← Fin.sum_univ_getElem]
    exact (Finset.sum_eq_single (⟨k, hk'⟩ : Fin _)
      (fun j _ hne => hother j j.isLt fun h => hne (Fin.ext h))
      (fun h => absurd (Finset.mem_univ _) h)).symm
  refine List.ext_getElem (by simp [length_weights]) fun j hj hj' => ?_
  rw [List.getElem_map, List.getElem_range]
  by_cases hne : j = k
  · subst hne
    rw [if_pos rfl, hself]
  · rw [if_neg hne, hother j hj hne]

/-- **`evals` computes the weights**, where they sum to one. -/
theorem evals_eq {n : Nat} {r : F} (hden : ∀ d ∈ denRow n, (d : F) ≠ 0)
    (hsum : (weights n r).sum = 1) : evals n r = .some (weights n r) := by
  unfold evals
  cases hhit : hit 0 .none (distances n r) with
  | some k =>
    obtain hnone | ⟨j, hj, rfl⟩ := getElem_of_hit_some hhit
    · cases hnone
    · rw [weights_of_hit hsum hj]
      simp only [Nat.zero_add]
  | none =>
    obtain ⟨-, hne⟩ := ne_zero_of_hit_none hhit
    have hden' : ∀ d ∈ List.map (Int.cast : Int → F) (denRow n), d ≠ 0 := by
      intro d hd
      obtain ⟨e, he, rfl⟩ := List.mem_map.mp hd
      exact hden e he
    let terms : List F := List.zipWith (· * ·) (List.map (fun d : Int => (d : F)⁻¹) (denRow n))
      ((distances n r).map (·⁻¹))
    have hweights : weights n r = terms.map ((distances n r).prod * ·) := by
      rw [weights, otherProducts_eq hne]
      refine List.ext_getElem (by simp [terms, length_distances, length_denRow]) fun i h1 h2 => ?_
      simp only [terms, List.getElem_zipWith, List.getElem_map]
      ring
    have hprod : (distances n r).prod * terms.sum = 1 := by
      rw [← hsum, hweights, List.sum_map_mul_left, List.map_id']
    have hterms : terms.sum ≠ 0 := right_ne_zero_of_mul_eq_one hprod
    have hinvDenom : invDenom n = .some (List.map (fun d : Int => (d : F)⁻¹) (denRow n)) := by
      rw [invDenom, batchInverse_eq hden', List.map_map]
      rfl
    rw [hweights, hinvDenom]
    simp only [Option.bind_eq_bind, Option.bind_some, baryTermsFromDists, batchInverse_eq hne]
    change (inverse terms.sum).bind _ = _
    rw [inverse, if_neg hterms, Option.bind_some, inv_eq_of_mul_eq_one_left hprod]
    exact congrArg _ (List.map_congr_left fun t _ => mul_comm _ _)

omit [DecidableEq F] in
/-- The weights on ten nodes sum to one: each denominator is 9! over a binomial. -/
theorem sum_weights_ten (h : (362880 : F) ≠ 0) (r : F) : (weights 10 r).sum = 1 := by
  have hrow : denRow 10 =
      [-362880, 40320, -10080, 4320, -2880, 2880, -4320, 10080, -40320, 362880] := by decide
  have hstart : r - ((start 10 : Int) : F) = r + 4 := by
    rw [show start 10 = -4 by decide]
    push_cast
    ring
  have hmul : (362880 : F) * (362880 : F)⁻¹ = 1 := mul_inv_cancel₀ h
  have h1 : (40320 : F)⁻¹ = 9 * (362880 : F)⁻¹ :=
    inv_eq_of_mul_eq_one_right (by linear_combination hmul)
  have h2 : (10080 : F)⁻¹ = 36 * (362880 : F)⁻¹ :=
    inv_eq_of_mul_eq_one_right (by linear_combination hmul)
  have h3 : (4320 : F)⁻¹ = 84 * (362880 : F)⁻¹ :=
    inv_eq_of_mul_eq_one_right (by linear_combination hmul)
  have h4 : (2880 : F)⁻¹ = 126 * (362880 : F)⁻¹ :=
    inv_eq_of_mul_eq_one_right (by linear_combination hmul)
  rw [weights, hrow, distances, hstart]
  generalize r + 4 = d
  simp only [distancesFrom, otherProducts, List.map_cons, List.map_nil, List.zipWith_cons_cons,
    List.zipWith_nil_left, List.prod_cons, List.prod_nil, List.sum_cons, List.sum_nil,
    Int.cast_neg, Int.cast_ofNat, inv_neg, h1, h2, h3, h4]
  generalize (362880 : F)⁻¹ = u at hmul ⊢
  linear_combination hmul

end LagrangePolynomial

end Rust

end LightningJolt
