/-
The Lagrange routines over a symmetric window of any size
(`jolt-core/src/poly/lagrange_poly.rs`): the basis at a point, the value at a
point, the kernel, and the coefficients, all of one polynomial.
-/
import Mathlib.LinearAlgebra.Lagrange
import LightningJolt.LagrangeWeights

namespace LightningJolt

open Polynomial Finset

variable {F : Type} [JoltField F]

namespace LagrangePolynomial

/-- The small integers a window of `n` nodes divides by are units. -/
def SmallsInvertible (F : Type) [JoltField F] (n : Nat) : Prop := ∀ k, 0 < k → k < n → (k : F) ≠ 0

/-- The `i`-th node of a window of `n`. -/
def node (F : Type) [JoltField F] (n i : Nat) : F := ((start n + i : Int) : F)

theorem SmallsInvertible.factorial_ne_zero {n k : Nat} (h : SmallsInvertible F n) (hk : k < n) :
    ((k.factorial : Nat) : F) ≠ 0 := by
  rw [← prod_range_add_one_eq_factorial, Nat.cast_prod, prod_ne_zero_iff]
  intro t ht
  rw [mem_range] at ht
  exact h (t + 1) (Nat.succ_pos t) (by omega)

theorem SmallsInvertible.node_injOn {n : Nat} (h : SmallsInvertible F n) :
    Set.InjOn (node F n) (range n : Finset Nat) := by
  intro i hi j hj hij
  rw [coe_range, Set.mem_Iio] at hi hj
  have hcast : (i : F) = j := by
    simp only [node] at hij
    push_cast at hij
    exact add_left_cancel hij
  rcases lt_trichotomy i j with hlt | heq | hlt
  · refine absurd ?_ (h (j - i) (by omega) (by omega))
    rw [Nat.cast_sub hlt.le, hcast, sub_self]
  · exact heq
  · refine absurd ?_ (h (i - j) (by omega) (by omega))
    rw [Nat.cast_sub hlt.le, hcast, sub_self]

/-! ## The weights are the Lagrange basis -/

theorem distances_eq (n : Nat) (r : F) : distances n r = (List.range n).map fun j => r - node F n j := by
  have hfrom : ∀ (n : Nat) (base : F),
      distancesFrom n base = (List.range n).map fun j : Nat => base - (j : F) := by
    intro n
    induction n with
    | zero => exact fun _ => rfl
    | succ n ih =>
      intro base
      rw [distancesFrom, ih, map_range_succ]
      congr 1
      · simp
      · refine List.map_congr_left fun j _ => ?_
        push_cast
        ring
  rw [distances, hfrom]
  refine List.map_congr_left fun j _ => ?_
  rw [node]
  push_cast
  ring

/-- The polynomial of the `i`-th weight. -/
noncomputable def weightPolynomial (F : Type) [JoltField F] (n i : Nat) : F[X] :=
  C (((denRow n).getD i 0 : Int) : F)⁻¹ *
    ((∏ j ∈ range i, (X - C (node F n j))) * ∏ j ∈ range (n - 1 - i), (X - C (node F n (i + 1 + j))))

theorem natDegree_weightPolynomial {n i : Nat} (hi : i < n) : (weightPolynomial F n i).natDegree < n := by
  have h1 : (∏ j ∈ range i, (X - C (node F n j))).natDegree = i := by
    rw [natDegree_finsetProd_X_sub_C_eq_card, card_range]
  have h2 : (∏ j ∈ range (n - 1 - i), (X - C (node F n (i + 1 + j)))).natDegree = n - 1 - i := by
    rw [natDegree_finsetProd_X_sub_C_eq_card, card_range]
  have hmul := natDegree_mul_le (p := ∏ j ∈ range i, (X - C (node F n j)))
    (q := ∏ j ∈ range (n - 1 - i), (X - C (node F n (i + 1 + j))))
  rw [h1, h2] at hmul
  refine (natDegree_C_mul_le _ _).trans_lt ?_
  omega

theorem drop_range_map {α : Type} (g : Nat → α) (n i : Nat) :
    ((List.range n).map g).drop (i + 1) = (List.range (n - 1 - i)).map fun j => g (i + 1 + j) := by
  refine List.ext_getElem (by simp; omega) fun j h1 h2 => ?_
  simp

theorem take_range_map {α : Type} (g : Nat → α) {n i : Nat} (hi : i ≤ n) :
    ((List.range n).map g).take i = (List.range i).map g := by
  refine List.ext_getElem (by simp; omega) fun j h1 h2 => ?_
  simp

theorem getElem_weights {n i : Nat} (r : F) (hi : i < (weights n r).length) :
    (weights n r)[i] = (weightPolynomial F n i).eval r := by
  have hin : i < n := by rwa [length_weights] at hi
  have hlt : i < (denRow n).length := by rwa [length_denRow]
  have hden : ((denRow n).getD i 0 : Int) = (denRow n)[i] := List.getD_eq_getElem _ _ hlt
  have htake : ((distances n r).take i).prod = ∏ j ∈ range i, (r - node F n j) := by
    rw [distances_eq, take_range_map _ hin.le]
    rfl
  have hdrop : ((distances n r).drop (i + 1)).prod =
      ∏ j ∈ range (n - 1 - i), (r - node F n (i + 1 + j)) := by
    rw [distances_eq, drop_range_map]
    rfl
  simp only [weights, List.getElem_zipWith, List.getElem_map]
  rw [getElem_otherProducts, htake, hdrop, weightPolynomial, hden]
  simp only [eval_mul, eval_C, eval_prod, eval_sub, eval_X]
  rw [one_mul, mul_comm]

/-- The denominators are the products of the distances between the nodes. -/
theorem prod_node_sub {n i : Nat} (hi : i < n) :
    (∏ j ∈ range i, (node F n i - node F n j)) *
        (∏ j ∈ range (n - 1 - i), (node F n i - node F n (i + 1 + j))) =
      (((denRow n).getD i 0 : Int) : F) := by
  have hleft : ∏ j ∈ range i, (node F n i - node F n j) = ((i.factorial : Nat) : F) := by
    rw [← prod_range_reflect, ← prod_range_add_one_eq_factorial, Nat.cast_prod]
    refine prod_congr rfl fun j hj => ?_
    rw [mem_range] at hj
    simp only [node]
    push_cast [Nat.cast_sub (show 1 ≤ i by omega), Nat.cast_sub (show j ≤ i - 1 by omega)]
    ring
  have hright : ∏ j ∈ range (n - 1 - i), (node F n i - node F n (i + 1 + j)) =
      (-1) ^ (n - 1 - i) * (((n - 1 - i).factorial : Nat) : F) := by
    have hterm : ∀ j ∈ range (n - 1 - i), node F n i - node F n (i + 1 + j) = -1 * ((j + 1 : Nat) : F) := by
      intro j _
      simp only [node]
      push_cast
      ring
    rw [prod_congr rfl hterm, prod_mul_distrib, prod_const, card_range, ← Nat.cast_prod,
      prod_range_add_one_eq_factorial]
  rw [hleft, hright, denRow, List.getD_eq_getElem _ _ (by simpa using hi), List.getElem_map,
    List.getElem_range]
  rcases Nat.even_or_odd (n - 1 - i) with heven | hodd
  · rw [if_neg (by rw [Nat.even_iff.mp heven]; decide), heven.neg_one_pow]
    push_cast
    ring
  · rw [if_pos (Nat.odd_iff.mp hodd), hodd.neg_one_pow]
    push_cast
    ring

theorem denRow_ne_zero {n : Nat} (h : SmallsInvertible F n) : ∀ d ∈ denRow n, (d : F) ≠ 0 := by
  intro d hd
  obtain ⟨i, hi, rfl⟩ := List.mem_map.mp hd
  rw [List.mem_range] at hi
  have h1 := h.factorial_ne_zero hi
  have h2 := h.factorial_ne_zero (k := n - 1 - i) (by omega)
  split_ifs <;> push_cast <;> simpa using ⟨h1, h2⟩

/-- The weights at a node are those of that node alone. -/
theorem eval_weightPolynomial {n i k : Nat} (h : SmallsInvertible F n) (hi : i < n) (hk : k < n) :
    (weightPolynomial F n i).eval (node F n k) = if i = k then 1 else 0 := by
  rw [weightPolynomial]
  simp only [eval_mul, eval_C, eval_prod, eval_sub, eval_X]
  split_ifs with hik
  · subst hik
    rw [prod_node_sub hi]
    refine inv_mul_cancel₀ (denRow_ne_zero h _ ?_)
    rw [List.getD_eq_getElem _ _ (by rw [length_denRow]; exact hi)]
    exact List.getElem_mem _
  · rcases Nat.lt_or_gt_of_ne hik with hlt | hgt
    · rw [prod_eq_zero (i := k - (i + 1)) (s := range (n - 1 - i)) (mem_range.mpr (by omega))
        (by rw [show i + 1 + (k - (i + 1)) = k by omega, sub_self]), mul_zero, mul_zero]
    · rw [prod_eq_zero (i := k) (s := range i) (mem_range.mpr hgt) (sub_self _), zero_mul, mul_zero]

/-- A polynomial of degree below the window is the combination of the weights
by its values at the nodes. -/
theorem eval_eq_sum_weights {n : Nat} (h : SmallsInvertible F n) {p : F[X]} (hp : p.degree < n) (r : F) :
    p.eval r = ∑ i ∈ range n, p.eval (node F n i) * (weightPolynomial F n i).eval r := by
  have hpoly : p = ∑ i ∈ range n, C (p.eval (node F n i)) * weightPolynomial F n i := by
    refine Polynomial.eq_of_degrees_lt_of_eval_index_eq (range n) h.node_injOn (by rwa [card_range]) ?_ ?_
    · rw [card_range]
      refine (degree_sum_le _ _).trans_lt ?_
      rw [Finset.sup_lt_iff (by exact WithBot.bot_lt_coe n)]
      intro i hi
      refine (degree_le_natDegree).trans_lt ?_
      exact WithBot.coe_lt_coe.mpr
        ((natDegree_C_mul_le _ _).trans_lt (natDegree_weightPolynomial (mem_range.mp hi)))
    · intro k hk
      rw [eval_finsetSum]
      simp only [eval_mul, eval_C]
      rw [sum_eq_single_of_mem k hk]
      · rw [eval_weightPolynomial h (mem_range.mp hk) (mem_range.mp hk), if_pos rfl, mul_one]
      · intro i hi hne
        rw [eval_weightPolynomial h (mem_range.mp hi) (mem_range.mp hk), if_neg hne, mul_zero]
  conv_lhs => rw [hpoly]
  rw [eval_finsetSum]
  simp only [eval_mul, eval_C]

/-- The weighted sum of values. -/
def combine (values ws : List F) : F := (List.zipWith (· * ·) values ws).sum

theorem combine_eq_sum {n : Nat} {values ws : List F} (hvalues : values.length = n) (hws : ws.length = n) :
    combine values ws = ∑ i ∈ range n, values.getD i 0 * ws.getD i 0 := by
  induction n generalizing values ws with
  | zero =>
    rw [List.length_eq_zero_iff.mp hvalues]
    rfl
  | succ n ih =>
    obtain ⟨v, values, rfl⟩ := List.exists_cons_of_length_eq_add_one hvalues
    obtain ⟨w, ws, rfl⟩ := List.exists_cons_of_length_eq_add_one hws
    have hrest := @ih values ws (by simpa using hvalues) (by simpa using hws)
    rw [sum_range_succ', combine, List.zipWith_cons_cons, List.sum_cons]
    rw [combine] at hrest
    rw [hrest, add_comm]
    simp

theorem getD_weights {n i : Nat} (r : F) (hi : i < n) :
    (weights n r).getD i 0 = (weightPolynomial F n i).eval r := by
  rw [List.getD_eq_getElem _ _ (by rwa [length_weights]), getElem_weights]

/-- The weights at a point combine the values of a polynomial at the nodes to
its value there. -/
theorem combine_weights {n : Nat} (h : SmallsInvertible F n) {cs values : List F} (hcs : cs.length = n)
    (hlen : values.length = n) (hvalues : ∀ i < n, horner (node F n i) cs = values.getD i 0) (r : F) :
    combine values (weights n r) = horner r cs := by
  have hdeg : (ofCoeffs cs).degree < n := hcs ▸ degree_ofCoeffs_lt cs
  rw [combine_eq_sum hlen (length_weights n r), ← eval_ofCoeffs, eval_eq_sum_weights h hdeg r]
  refine sum_congr rfl fun i hi => ?_
  rw [mem_range] at hi
  rw [getD_weights r hi, eval_ofCoeffs, hvalues i hi]

theorem sum_weights {n : Nat} (hpos : 0 < n) (h : SmallsInvertible F n) (r : F) :
    (weights n r).sum = 1 := by
  have hone := eval_eq_sum_weights h (p := (1 : F[X]))
    (by rw [degree_one]; exact WithBot.coe_lt_coe.mpr hpos) r
  simp only [eval_one, one_mul] at hone
  have hones : List.zipWith (· * ·) (List.replicate n (1 : F)) (weights n r) = weights n r :=
    List.ext_getElem (by simp [length_weights]) fun i h1 h2 => by simp
  have hcombine := @combine_eq_sum F _ n (List.replicate n (1 : F)) _ (by simp) (length_weights n r)
  rw [combine, hones] at hcombine
  rw [hcombine]
  refine Eq.trans ?_ hone.symm
  refine sum_congr rfl fun i hi => ?_
  rw [mem_range] at hi
  rw [getD_weights r hi, List.getD_eq_getElem _ _ (by simpa using hi), List.getElem_replicate, one_mul]

/-! ## Coefficients -/

/-- The loops over the divided differences: the first one of each order, by the
inverses of the orders. -/
def newtonCoeffs : List F → List F → List F
  | _, [] => []
  | [], d :: _ => [d]
  | inv :: invs, d :: ds =>
    d :: newtonCoeffs invs ((List.zipWith (fun next prev => next - prev) ds (d :: ds)).map (· * inv))
termination_by _ ds => ds.length
decreasing_by simp

/-- `coeffs += scale * basis`. -/
def addScaled (scale : F) : List F → List F → List F
  | b :: basis, c :: coeffs => (c + scale * b) :: addScaled scale basis coeffs
  | [], coeffs => coeffs
  | _, [] => []

/-- The entries behind the first of `basis * (x - a)`, the highest old one last. -/
def shiftBasis (a : Int) : F → List F → List F
  | last, [] => [last]
  | prev, b :: basis => (prev - b * (a : F)) :: shiftBasis a b basis

/-- `basis * (x - a)`. -/
def timesNode (a : Int) : List F → List F
  | [] => []
  | b :: basis => -(b * (a : F)) :: shiftBasis a b basis

/-- The conversion from the Newton form, from the `k`-th coefficient on. -/
def newtonToMonomial (start : Int) : Nat → List F → List F → List F → List F
  | _, [], _, coeffs => coeffs
  | _, [scale], basis, coeffs => addScaled scale basis coeffs
  | k, scale :: newton, basis, coeffs =>
    newtonToMonomial start (k + 1) newton (timesNode (start + k) basis) (addScaled scale basis coeffs)

/-- `interpolate_coeffs`. -/
def interpolateCoeffs [DecidableEq F] (values : List F) : Option (List F) := do
  let n := values.length
  let invs ← batchInverse ((List.range (n - 1)).map fun m => ((m + 1 : Nat) : F))
  .some (newtonToMonomial (start n) 0 (newtonCoeffs invs values) [1] (List.replicate n 0))

/-- The loops are those of the divided differences, where the orders are units. -/
theorem newtonCoeffs_eq [DecidableEq F] {k m : Nat} {ds : List F} (hlen : ds.length = m + 1)
    (h : ∀ i, k ≤ i → i < k + m → (i : F) ≠ 0) :
    dividedDifferences k ds = .some (newtonCoeffs ((List.range m).map fun i => ((k + i : Nat) : F)⁻¹) ds) := by
  induction m generalizing k ds with
  | zero =>
    obtain ⟨d, rfl⟩ := List.length_eq_one_iff.mp hlen
    simp [dividedDifferences, newtonCoeffs]
  | succ m ih =>
    obtain ⟨d, d1, ds, rfl⟩ : ∃ d d1 ds', ds = d :: d1 :: ds' := by
      obtain ⟨d, tail, rfl⟩ := List.exists_cons_of_length_eq_add_one hlen
      obtain ⟨d1, ds', rfl⟩ := List.exists_cons_of_length_eq_add_one (Nat.succ.inj hlen)
      exact ⟨d, d1, ds', rfl⟩
    have hk : inverse (k : F) = .some (k : F)⁻¹ := if_neg (h k le_rfl (by omega))
    have hrest := @ih (k + 1) ((List.zipWith (fun next prev => next - prev) (d1 :: ds) (d :: d1 :: ds)).map
      (· * (k : F)⁻¹)) (by simpa using hlen) fun i hle hlt => h i (by omega) (by omega)
    have hshift : (List.range m).map (fun i => ((k + (i + 1) : Nat) : F)⁻¹) =
        (List.range m).map fun i => ((k + 1 + i : Nat) : F)⁻¹ :=
      List.map_congr_left fun i _ => by rw [show k + (i + 1) = k + 1 + i by omega]
    rw [dividedDifferences, hk]
    simp only [Option.bind_eq_bind, Option.bind_some, hrest]
    rw [map_range_succ, newtonCoeffs, hshift]
    simp only [Nat.add_zero]

theorem length_addScaled (scale : F) (basis coeffs : List F) :
    (addScaled scale basis coeffs).length = coeffs.length := by
  induction basis generalizing coeffs with
  | nil => cases coeffs <;> rfl
  | cons b basis ih =>
    cases coeffs with
    | nil => rfl
    | cons c coeffs => rw [addScaled, List.length_cons, ih, List.length_cons]

theorem ofCoeffs_addScaled {scale : F} {basis coeffs : List F} (h : basis.length ≤ coeffs.length) :
    ofCoeffs (addScaled scale basis coeffs) = ofCoeffs coeffs + C scale * ofCoeffs basis := by
  induction basis generalizing coeffs with
  | nil => cases coeffs <;> simp [addScaled, ofCoeffs]
  | cons b basis ih =>
    cases coeffs with
    | nil => simp at h
    | cons c coeffs =>
      rw [addScaled, ofCoeffs, ih (by simpa using h), ofCoeffs, ofCoeffs, C_add, C_mul]
      ring

theorem horner_addScaled {scale : F} {basis coeffs : List F} (h : basis.length ≤ coeffs.length) (x : F) :
    horner x (addScaled scale basis coeffs) = horner x coeffs + scale * horner x basis := by
  rw [← eval_ofCoeffs, ofCoeffs_addScaled h, eval_add, eval_mul, eval_C, eval_ofCoeffs, eval_ofCoeffs]

theorem length_timesNode {a : Int} {basis : List F} (h : basis ≠ []) :
    (timesNode a basis).length = basis.length + 1 := by
  have hshift : ∀ (basis : List F) (prev : F), (shiftBasis a prev basis).length = basis.length + 1 := by
    intro basis
    induction basis with
    | nil => exact fun _ => rfl
    | cons b basis ih => exact fun prev => by rw [shiftBasis, List.length_cons, ih, List.length_cons]
  cases basis with
  | nil => exact absurd rfl h
  | cons b basis => rw [timesNode, List.length_cons, hshift, List.length_cons]

theorem horner_timesNode (a : Int) (basis : List F) (x : F) :
    horner x (timesNode a basis) = horner x basis * (x - (a : F)) := by
  have hshift : ∀ (basis : List F) (prev : F),
      horner x (shiftBasis a prev basis) = prev + horner x basis * (x - (a : F)) := by
    intro basis
    induction basis with
    | nil => exact fun prev => by simp [shiftBasis, horner]
    | cons b basis ih =>
      intro prev
      have hrest := ih b
      simp only [horner] at hrest
      simp only [shiftBasis, horner, List.foldr_cons, hrest]
      ring
  cases basis with
  | nil => simp [timesNode, horner]
  | cons b basis =>
    have hrest := hshift basis b
    simp only [horner] at hrest
    simp only [timesNode, horner, List.foldr_cons, hrest]
    ring

/-- The conversion adds the Newton form from `k` on, on top of the basis. -/
theorem newtonToMonomial_eq {start : Int} {k : Nat} {newton basis coeffs : List F} (hbasis : basis ≠ [])
    (hlen : basis.length + newton.length ≤ coeffs.length + 1) :
    (newtonToMonomial start k newton basis coeffs).length = coeffs.length ∧
      ∀ x, horner x (newtonToMonomial start k newton basis coeffs) =
        horner x coeffs + horner x basis * newtonValue (x - (start : F)) k newton := by
  fun_induction newtonToMonomial start k newton basis coeffs with
  | case1 k basis coeffs => exact ⟨rfl, fun x => by simp [newtonValue]⟩
  | case2 k scale basis coeffs =>
    refine ⟨length_addScaled .., fun x => ?_⟩
    rw [horner_addScaled (by simpa using hlen)]
    simp only [newtonValue]
    ring
  | case3 k scale newton basis coeffs hnewton ih =>
    rw [List.length_cons] at hlen
    have hne : timesNode (start + k) basis ≠ [] := by
      intro h
      have hlength := length_timesNode (a := start + k) hbasis
      rw [h] at hlength
      simp at hlength
    obtain ⟨ihlen, ihvalue⟩ := ih hne (by rw [length_timesNode hbasis, length_addScaled]; omega)
    refine ⟨by rw [ihlen, length_addScaled], fun x => ?_⟩
    rw [ihvalue, horner_timesNode, horner_addScaled (by omega), newtonValue]
    push_cast
    ring

/-- **`interpolate_coeffs`** gives as many coefficients as values, of the
polynomial with these values at the nodes. -/
theorem interpolateCoeffs_eq [DecidableEq F] (values : List F) (hpos : 0 < values.length)
    (h : SmallsInvertible F values.length) :
    ∃ cs, interpolateCoeffs values = .some cs ∧ cs.length = values.length ∧
      ∀ i < values.length, horner (node F values.length i) cs = values.getD i 0 := by
  obtain ⟨m, hm⟩ : ∃ m, values.length = m + 1 := ⟨values.length - 1, by omega⟩
  have hsmall : ∀ d ∈ (List.range m).map fun i => ((i + 1 : Nat) : F), d ≠ 0 := by
    intro d hd
    obtain ⟨i, hi, rfl⟩ := List.mem_map.mp hd
    exact h (i + 1) (Nat.succ_pos i) (by have := List.mem_range.mp hi; omega)
  have hvalues : values = (List.range (m + 1)).map fun i => values.getD i 0 := by
    refine List.ext_getElem (by simpa using hm) fun i h1 h2 => ?_
    rw [List.getElem_map, List.getElem_range, List.getD_eq_getElem _ _ h1]
  have hdd := @newtonCoeffs_eq F _ _ 1 m values hm fun i hle hlt => h i (by omega) (by omega)
  have hdiv := @dividedDifferences_eq F _ _ 1 m (fun i => values.getD i 0)
    fun i hle hlt => h i (by omega) (by omega)
  rw [← hvalues, hdd] at hdiv
  have hinvs : (List.range m).map (fun i => ((i + 1 : Nat) : F)⁻¹) =
      (List.range m).map fun i => ((1 + i : Nat) : F)⁻¹ :=
    List.map_congr_left fun i _ => by rw [Nat.add_comm]
  have hnewton := Option.some.inj hdiv
  obtain ⟨hlen, hvalue⟩ := @newtonToMonomial_eq F _ (start (m + 1)) 0
    (newtonCoeffs ((List.range m).map fun i => ((1 + i : Nat) : F)⁻¹) values) [1]
    (List.replicate (m + 1) 0) (by simp) (by rw [hnewton]; simp; omega)
  refine ⟨_, ?_, hlen.trans (by simpa using hm.symm), fun i hi => ?_⟩
  · simp only [interpolateCoeffs, hm, Nat.add_sub_cancel]
    rw [batchInverse_eq hsmall]
    simp only [Option.bind_eq_bind, Option.bind_some, List.map_map, Function.comp_def]
    rw [hinvs]
  · rw [hvalue, hm]
    have hnode : node F (m + 1) i - ((start (m + 1) : Int) : F) = (i : F) := by
      simp only [node]
      push_cast
      ring
    have hzero : ∀ k, horner (node F (m + 1) i) (List.replicate k (0 : F)) = 0 := by
      intro k
      induction k with
      | zero => rfl
      | succ k ih =>
        simp only [horner] at ih
        simp only [List.replicate_succ, horner, List.foldr_cons, ih]
        ring
    rw [hnode, hzero, hnewton]
    have hatnode := newtonValue_node (F := F) (m := m) (i := i) (f := fun i => values.getD i 0) (by omega)
      fun k hk hlt => h k hk (by omega)
    rw [hatnode]
    simp [horner]

/-! ## Values and the kernel -/

section Values

variable [DecidableEq F]

/-- `evaluate`. -/
def evaluate (values : List F) (r : F) : Option F :=
  let n := values.length
  match hit 0 .none (distances n r) with
  | .some i => values[i]?
  | .none => do
    let invDenom ← invDenom n
    let (terms, sum) ← baryTermsFromDists (distances n r) invDenom
    let invSum ← inverse sum
    .some ((List.zipWith (· * ·) values terms).sum * invSum)

/-- `lagrange_kernel`. -/
def lagrangeKernel (n : Nat) (x y : F) : Option F :=
  match hit 0 .none (distances n x), hit 0 .none (distances n y) with
  | .some ix, .some iy => .some (if ix = iy then 1 else 0)
  | .some ix, .none => do
    let invDenom ← invDenom n
    let (terms, sum) ← baryTermsFromDists (distances n y) invDenom
    .some ((← terms[ix]?) * (← inverse sum))
  | .none, .some iy => do
    let invDenom ← invDenom n
    let (terms, sum) ← baryTermsFromDists (distances n x) invDenom
    .some ((← terms[iy]?) * (← inverse sum))
  | .none, .none => do
    let invDenom ← invDenom n
    let (termsX, sumX) ← baryTermsFromDists (distances n x) invDenom
    let (termsY, sumY) ← baryTermsFromDists (distances n y) invDenom
    .some ((List.zipWith (· * ·) termsX termsY).sum * (← inverse (sumX * sumY)))

/-- Off the nodes the weights are the barycentric terms over their sum. -/
theorem terms_of_hit_none {n : Nat} {r : F} (hpos : 0 < n) (h : SmallsInvertible F n)
    (hhit : hit 0 .none (distances n r) = .none) :
    ∃ inv terms sum, invDenom n = .some inv ∧ baryTermsFromDists (distances n r) inv = .some (terms, sum) ∧
      sum ≠ 0 ∧ weights n r = terms.map (· * sum⁻¹) := by
  have hevals := evals_eq (denRow_ne_zero h) (sum_weights hpos h r)
  rw [evals, hhit] at hevals
  obtain ⟨inv, hinv, hevals⟩ := Option.bind_eq_some_iff.mp hevals
  obtain ⟨⟨terms, sum⟩, hterms, hevals⟩ := Option.bind_eq_some_iff.mp hevals
  obtain ⟨invSum, hsum, hevals⟩ := Option.bind_eq_some_iff.mp hevals
  have hne : sum ≠ 0 := by
    rintro rfl
    simp [inverse] at hsum
  rw [inverse, if_neg hne] at hsum
  obtain rfl := Option.some.inj hsum
  exact ⟨inv, terms, sum, hinv, hterms, hne, (Option.some.inj hevals).symm⟩

/-- At a node the weights are those of that node. -/
theorem weights_of_hit_some {n i : Nat} {r : F} (hpos : 0 < n) (h : SmallsInvertible F n)
    (hhit : hit 0 .none (distances n r) = .some i) :
    i < n ∧ r = node F n i ∧ weights n r = (List.range n).map fun j => if j = i then 1 else 0 := by
  obtain hnone | ⟨j, hj, rfl⟩ := getElem_of_hit_some hhit
  · cases hnone
  rw [Nat.zero_add]
  have hlt : j < n := by
    obtain ⟨hlt, -⟩ := List.getElem?_eq_some_iff.mp hj
    rwa [length_distances] at hlt
  refine ⟨hlt, ?_, weights_of_hit (sum_weights hpos h r) hj⟩
  rw [distances_eq] at hj
  simpa [hlt, sub_eq_zero] using hj

omit [DecidableEq F] in
theorem sum_zipWith_mul (f : F → F → F) (us ws : List F) (c : F) :
    (List.zipWith f us ws).sum * c = (List.zipWith (fun a b => f a b * c) us ws).sum := by
  have hmap := List.sum_map_mul_right (List.zipWith f us ws) id c
  rw [List.map_id, List.map_zipWith] at hmap
  exact hmap.symm

/-- **`evaluate`** is the value of the combination by the weights. -/
theorem evaluate_eq {values : List F} (hpos : 0 < values.length) (h : SmallsInvertible F values.length)
    (r : F) : evaluate values r = .some (combine values (weights values.length r)) := by
  cases hhit : hit 0 .none (distances values.length r) with
  | some i =>
    obtain ⟨hi, -, hweights⟩ := weights_of_hit_some hpos h hhit
    simp only [evaluate, hhit]
    rw [List.getElem?_eq_getElem hi, hweights, combine_eq_sum rfl (by simp), sum_eq_single_of_mem i
      (mem_range.mpr hi)]
    · simp [hi]
    · intro j hj hne
      rw [mem_range] at hj
      simp [hj, hne]
  | none =>
    obtain ⟨inv, terms, sum, hinv, hterms, hne, hweights⟩ := terms_of_hit_none hpos h hhit
    simp only [evaluate, hhit, hinv, hterms, Option.bind_eq_bind, Option.bind_some, inverse, if_neg hne]
    rw [hweights, combine, List.zipWith_map_right, sum_zipWith_mul]
    simp only [mul_assoc]

/-- **`lagrange_kernel`** combines the weights at one point by those at the other. -/
theorem lagrangeKernel_eq {n : Nat} (hpos : 0 < n) (h : SmallsInvertible F n) (x y : F) :
    lagrangeKernel n x y = .some (combine (weights n x) (weights n y)) := by
  have hsingle : ∀ {i : Nat} {ws : List F}, i < n → ws.length = n →
      combine ((List.range n).map fun j => if j = i then (1 : F) else 0) ws = ws.getD i 0 := by
    intro i ws hi hws
    rw [combine_eq_sum (by simp) hws, sum_eq_single_of_mem i (mem_range.mpr hi)]
    · simp [hi]
    · intro j hj hne
      rw [mem_range] at hj
      simp [hj, hne]
  have hcomm : ∀ us ws : List F, combine us ws = combine ws us := by
    intro us ws
    rw [combine, combine, List.zipWith_comm]
    simp only [mul_comm]
  unfold lagrangeKernel
  cases hx : hit 0 .none (distances n x) with
  | some ix =>
    obtain ⟨hix, -, hwx⟩ := weights_of_hit_some hpos h hx
    cases hy : hit 0 .none (distances n y) with
    | some iy =>
      obtain ⟨hiy, -, hwy⟩ := weights_of_hit_some hpos h hy
      rw [hwx, hwy, hsingle hix (by simp)]
      simp [hix]
    | none =>
      obtain ⟨inv, terms, sum, hinv, hterms, hne, hwy⟩ := terms_of_hit_none hpos h hy
      have hlen : terms.length = n := by
        have hlength := length_weights n y
        rwa [hwy, List.length_map] at hlength
      rw [hwx, hsingle hix (length_weights n y), hwy]
      simp only [hinv, hterms, Option.bind_eq_bind, Option.bind_some, inverse, if_neg hne,
        List.getElem?_eq_getElem (show ix < terms.length by omega)]
      rw [List.getD_eq_getElem _ _ (by simpa [hlen] using hix), List.getElem_map]
  | none =>
    obtain ⟨inv, terms, sum, hinv, hterms, hne, hwx⟩ := terms_of_hit_none hpos h hx
    have hlen : terms.length = n := by
      have hlength := length_weights n x
      rwa [hwx, List.length_map] at hlength
    cases hy : hit 0 .none (distances n y) with
    | some iy =>
      obtain ⟨hiy, -, hwy⟩ := weights_of_hit_some hpos h hy
      rw [hcomm, hwy, hsingle hiy (length_weights n x), hwx]
      simp only [hinv, hterms, Option.bind_eq_bind, Option.bind_some, inverse, if_neg hne,
        List.getElem?_eq_getElem (show iy < terms.length by omega)]
      rw [List.getD_eq_getElem _ _ (by simpa [hlen] using hiy), List.getElem_map]
    | none =>
      obtain ⟨inv', terms', sum', hinv', hterms', hne', hwy⟩ := terms_of_hit_none hpos h hy
      obtain rfl : inv = inv' := Option.some.inj (hinv.symm.trans hinv')
      simp only [hinv, hterms, hterms', Option.bind_eq_bind, Option.bind_some, inverse,
        if_neg (mul_ne_zero hne hne')]
      rw [hwx, hwy, combine, List.zipWith_map, sum_zipWith_mul, mul_inv]
      simp only [mul_mul_mul_comm]

end Values

end LagrangePolynomial

end LightningJolt
