/-
Interpolation of a univariate polynomial from its values at zero, one, two and so
on, and at infinity.
-/
import LightningJolt.UniPoly

namespace LightningJolt

open Polynomial Finset

variable {F : Type} [JoltField F]

/-! ## The polynomial of a coefficient list -/

/-- The polynomial with these coefficients, lowest first. -/
noncomputable def ofCoeffs : List F → F[X]
  | [] => 0
  | c :: cs => C c + X * ofCoeffs cs

noncomputable def UniPoly.toPolynomial (p : UniPoly F) : F[X] := ofCoeffs p.coeffs

theorem eval_ofCoeffs (x : F) (cs : List F) : (ofCoeffs cs).eval x = horner x cs := by
  induction cs with
  | nil => simp [ofCoeffs, horner]
  | cons c cs ih => simp [ofCoeffs, horner, ih]

theorem coeff_ofCoeffs (cs : List F) (n : Nat) : (ofCoeffs cs).coeff n = cs.getD n 0 := by
  induction cs generalizing n with
  | nil => simp [ofCoeffs]
  | cons c cs ih =>
    cases n with
    | zero => simp [ofCoeffs]
    | succ n => simp [ofCoeffs, ih]

theorem degree_ofCoeffs_lt (cs : List F) : (ofCoeffs cs).degree < cs.length := by
  rw [degree_lt_iff_coeff_zero]
  intro n hn
  rw [coeff_ofCoeffs, List.getD_eq_default _ _ hn]

theorem ofCoeffs_append (cs ds : List F) :
    ofCoeffs (cs ++ ds) = ofCoeffs cs + X ^ cs.length * ofCoeffs ds := by
  induction cs with
  | nil => simp [ofCoeffs]
  | cons c cs ih =>
    rw [List.cons_append, ofCoeffs, ih, ofCoeffs, List.length_cons, pow_succ]
    ring

/-! ## Newton's divided differences -/

/-- The inverse, whose absence is a panic. -/
def inverse [DecidableEq F] (x : F) : Option F := if x = 0 then .none else .some x⁻¹

/-- The loops of `newton_interpolation` that compute the divided differences: of
the entries from index `k - 1` on the first stays, and the others are replaced by
their differences over `k`. -/
def dividedDifferences [DecidableEq F] (k : Nat) : List F → Option (List F)
  | [] => .some []
  | [e] => .some [e]
  | e :: e1 :: es => do
    let invK ← inverse (k : F)
    let rest ← dividedDifferences (k + 1)
      ((List.zipWith (fun next prev => next - prev) (e1 :: es) (e :: e1 :: es)).map (· * invK))
    .some (e :: rest)
termination_by es => es.length
decreasing_by simp

/-- A round of the conversion: the coefficients times `X - shift`, plus `d`. -/
def hornerStep (shift d : F) (coeffs : List F) : List F :=
  List.zipWith (fun prev cur => prev - shift * cur) (d :: coeffs) coeffs

/-- The conversion of `newton_interpolation` to the monomial basis, in `n`
coefficients, of the divided differences from index `k` on. -/
def monomialBasis (n k : Nat) : List F → List F
  | [] => List.replicate n 0
  | [d] => d :: List.replicate (n - 1) 0
  | d :: ds => hornerStep (k : F) d (monomialBasis n (k + 1) ds)

/-- `newton_interpolation`. -/
def newtonInterpolation [DecidableEq F] (evals : List F) : Option (List F) :=
  match evals with
  | [] => .some [0]
  | [e] => .some [e]
  | evals => do .some (monomialBasis evals.length 0 (← dividedDifferences 1 evals))

/-! ## The interpolations -/

namespace UniPoly

def fromEvalsDegree2 (e0 e1 e2 : F) : UniPoly F :=
  let c2 := (e0 - e1 - e1 + e2) * 2⁻¹
  ⟨[e0, e1 - e0 - c2, c2]⟩

def fromEvalsDegree3 (e0 e1 e2 e3 : F) : UniPoly F :=
  let c3 := (e3 - e0 + (e1 - e2) * 3) * 6⁻¹
  let c2 := (e0 - e1 - e1 + e2) * 2⁻¹ - c3 - c3 - c3
  ⟨[e0, e1 - e0 - c2 - c3, c2, c3]⟩

/-- `from_evals`, at zero, one, and so on. -/
def fromEvals [DecidableEq F] (evals : List F) : Option (UniPoly F) :=
  match evals with
  | [e0, e1, e2] => .some (fromEvalsDegree2 e0 e1 e2)
  | [e0, e1, e2, e3] => .some (fromEvalsDegree3 e0 e1 e2 e3)
  | evals => (newtonInterpolation evals).map (⟨·⟩)

/-- The loop of `pow_u64`, by repeated squaring. -/
def powLoop (result current : F) (e : Nat) : F :=
  if e = 0 then result
  else powLoop (if e % 2 = 1 then result * current else result) (current * current) (e / 2)
termination_by e
decreasing_by omega

/-- `pow_u64`. -/
def powU64 (base : Nat) (exp : Nat) : F := if exp = 0 then 1 else powLoop 1 (base : F) exp

/-- `from_evals_toom`, the last value being the one at infinity. -/
def fromEvalsToom [DecidableEq F] (evals : List F) : Option (UniPoly F) :=
  match evals with
  | [e0, e1, eInf] => .some ⟨[e0, e1 - e0 - eInf, eInf]⟩
  | [e0, e1, e2, eInf] =>
    let eInf6 := eInf + eInf + eInf + eInf + eInf + eInf
    let c2 := (e2 + e0 - e1 - e1 - eInf6) * 2⁻¹
    .some ⟨[e0, e1 - e0 - eInf - c2, c2, eInf]⟩
  | evals => do
    let leading ← evals.getLast?
    let reduced := evals.dropLast.mapIdx fun i e => e - leading * powU64 i (evals.length - 1)
    .some ⟨(← newtonInterpolation reduced) ++ [leading]⟩

end UniPoly

/-! ## Newton interpolation recovers the values -/

/-- The first and the other terms of a sequence. -/
theorem map_range_succ {α : Type} (g : Nat → α) (m : Nat) :
    (List.range (m + 1)).map g = g 0 :: (List.range m).map fun i => g (i + 1) := by
  rw [List.range_succ_eq_map, List.map_cons, List.map_map]
  rfl

theorem divided_succ (g : Nat → F) (m : Nat) (invK : F) :
    (List.zipWith (fun next prev => next - prev) ((List.range m).map fun i => g (i + 1))
      ((List.range (m + 1)).map g)).map (· * invK) =
      (List.range m).map (invK • fwdDiff 1 g) := by
  refine List.ext_getElem (by simp) fun i h1 h2 => ?_
  simp [fwdDiff, mul_comm]

/-- The divided differences of a sequence. -/
theorem dividedDifferences_eq [DecidableEq F] {k m : Nat} {g : Nat → F}
    (hne : ∀ i, k ≤ i → i < k + m → (i : F) ≠ 0) :
    dividedDifferences k ((List.range (m + 1)).map g) =
      .some ((List.range (m + 1)).map fun j =>
        (fwdDiff 1)^[j] g 0 * ((k.ascFactorial j : Nat) : F)⁻¹) := by
  induction m generalizing k g with
  | zero => simp [dividedDifferences]
  | succ m ih =>
    have hk : (k : F) ≠ 0 := hne k (le_refl k) (by omega)
    have hrest := ih (k := k + 1) (g := (k : F)⁻¹ • fwdDiff 1 g)
      fun i hle hlt => hne i (by omega) (by omega)
    have hlist : (List.range (m + 1 + 1)).map g =
        g 0 :: g 1 :: (List.range m).map fun i => g (i + 1 + 1) := by
      rw [map_range_succ, map_range_succ]
    have hinv : inverse (k : F) = .some (k : F)⁻¹ := if_neg hk
    rw [hlist, dividedDifferences, hinv, ← map_range_succ fun i => g (i + 1), ← map_range_succ g]
    simp only [Option.bind_eq_bind, Option.bind_some, divided_succ, hrest]
    rw [map_range_succ fun j => (fwdDiff 1)^[j] g 0 * ((k.ascFactorial j : Nat) : F)⁻¹]
    congr 1
    congr 1
    · simp
    · refine List.map_congr_left fun j _ => ?_
      have hfactorial : k.ascFactorial (j + 1) = k * (k + 1).ascFactorial j := by
        rw [Nat.ascFactorial_succ, Nat.succ_ascFactorial]
      rw [fwdDiff_iter_const_smul, hfactorial, Function.iterate_succ_apply, Nat.cast_mul, mul_inv,
        Pi.smul_apply, smul_eq_mul]
      ring

/-- The value of a combination of the Newton basis from the node `k` on. -/
def newtonValue (x : F) (k : Nat) : List F → F
  | [] => 0
  | d :: ds => d + (x - k) * newtonValue x (k + 1) ds

theorem horner_hornerStep (x shift d : F) (cs : List F) :
    horner x (List.zipWith (fun prev cur => prev - shift * cur) (d :: cs) (cs ++ [0])) =
      d + (x - shift) * horner x cs := by
  induction cs generalizing d with
  | nil => simp [horner]
  | cons c cs ih =>
    have hrest := ih c
    simp only [horner] at hrest
    simp only [horner, List.cons_append, List.zipWith_cons_cons, List.foldr_cons, hrest]
    ring

/-- The coefficients above those in use stay zero. -/
theorem monomialBasis_eq {n k : Nat} {ds : List F} (hne : ds ≠ []) (hlen : ds.length ≤ n) :
    ∃ cs, monomialBasis n k ds = cs ++ List.replicate (n - ds.length) 0 ∧ cs.length = ds.length ∧
      ∀ x, horner x cs = newtonValue x k ds := by
  fun_induction monomialBasis n k ds with
  | case1 => exact absurd rfl hne
  | case2 k d => exact ⟨[d], rfl, rfl, fun x => by simp [horner, newtonValue]⟩
  | case3 k d ds hds ih =>
    have hne' : ds ≠ [] := fun h => hds h
    rw [List.length_cons] at hlen
    obtain ⟨cs, hcs, hlength, hvalue⟩ := ih hne' (by omega)
    obtain ⟨z, hz⟩ : ∃ z, n - ds.length = z + 1 := ⟨n - ds.length - 1, by omega⟩
    refine ⟨List.zipWith (fun prev cur => prev - k * cur) (d :: cs) (cs ++ [0]), ?_, by simp [hlength],
      fun x => ?_⟩
    · have hzeros : cs ++ List.replicate (z + 1) (0 : F) = (cs ++ [0]) ++ List.replicate z 0 := by
        rw [List.replicate_succ, List.append_assoc, List.singleton_append]
      have hlast : List.zipWith (fun prev cur => prev - (k : F) * cur) (List.replicate (z + 1) 0)
          (List.replicate z 0) = List.replicate z 0 := by simp
      rw [hornerStep, hcs, hz, List.length_cons, show n - (ds.length + 1) = z by omega, ← List.cons_append]
      rw [hzeros, List.zipWith_append (by simp), hlast]
    · rw [horner_hornerStep, hvalue, newtonValue]

theorem newtonValue_range (x : F) (k m : Nat) (g : Nat → F) :
    newtonValue x k ((List.range m).map g) =
      ∑ j ∈ range m, g j * ∏ t ∈ range j, (x - ((k + t : Nat) : F)) := by
  induction m generalizing k g with
  | zero => simp [newtonValue]
  | succ m ih =>
    rw [map_range_succ, newtonValue, ih, sum_range_succ', mul_sum]
    simp only [prod_range_succ', range_zero, prod_empty, mul_one, add_zero]
    rw [add_comm]
    congr 1
    refine sum_congr rfl fun j _ => ?_
    simp only [show ∀ t, k + 1 + t = k + (t + 1) by intro t; omega]
    ring

/-- At a node of the sequence the Newton basis makes the value of the sequence. -/
theorem newtonValue_node {m i : Nat} {f : Nat → F} (hi : i ≤ m)
    (hne : ∀ k, 0 < k → k < m + 1 → (k : F) ≠ 0) :
    newtonValue (i : F) 0 ((List.range (m + 1)).map fun j =>
      (fwdDiff 1)^[j] f 0 * (((1 : Nat).ascFactorial j : Nat) : F)⁻¹) = f i := by
  have hterm : ∀ j ∈ range (m + 1), (fwdDiff 1)^[j] f 0 * (((1 : Nat).ascFactorial j : Nat) : F)⁻¹ *
      ∏ t ∈ range j, ((i : F) - ((0 + t : Nat) : F)) = i.choose j • (fwdDiff 1)^[j] f 0 := by
    intro j hj
    have hfactorial : ((j.factorial : Nat) : F) ≠ 0 := by
      rw [← prod_range_add_one_eq_factorial, Nat.cast_prod, prod_ne_zero_iff]
      intro t ht
      rw [mem_range] at ht hj
      exact hne (t + 1) (Nat.succ_pos t) (by omega)
    simp only [zero_add]
    rw [← descPochhammer_eval_eq_prod_range, descPochhammer_eval_eq_descFactorial,
      Nat.descFactorial_eq_factorial_mul_choose, Nat.one_ascFactorial, Nat.cast_mul, nsmul_eq_mul]
    field_simp
  have hseries := shift_eq_sum_fwdDiff_iter 1 f i 0
  rw [zero_add, smul_eq_mul, mul_one] at hseries
  rw [newtonValue_range, sum_congr rfl hterm, hseries]
  refine (sum_subset (range_mono (by omega)) fun j _ hj => ?_).symm
  rw [mem_range] at hj
  rw [Nat.choose_eq_zero_of_lt (by omega), zero_smul]

/-- **Newton interpolation** gives the polynomial of degree below `n` with these
values at the first `n` points. -/
theorem newtonInterpolation_eq [DecidableEq F] {n : Nat} {f : Nat → F} (hpos : 0 < n)
    (hne : ∀ k, 0 < k → k < n → (k : F) ≠ 0) :
    ∃ coeffs, newtonInterpolation ((List.range n).map f) = .some coeffs ∧ coeffs.length = n ∧
      ∀ i < n, horner (i : F) coeffs = f i := by
  obtain ⟨m, rfl⟩ : ∃ m, n = m + 1 := ⟨n - 1, by omega⟩
  cases m with
  | zero =>
    refine ⟨[f 0], rfl, rfl, fun i hi => ?_⟩
    obtain rfl : i = 0 := by omega
    simp [horner]
  | succ m =>
    have hdd := @dividedDifferences_eq F _ _ 1 (m + 1) f fun i hle hlt => hne i hle (by omega)
    obtain ⟨cs, hcs, hlen, hvalue⟩ := @monomialBasis_eq F _ (m + 2) 0 ((List.range (m + 2)).map fun j =>
      (fwdDiff 1)^[j] f 0 * (((1 : Nat).ascFactorial j : Nat) : F)⁻¹) (by simp) (by simp)
    have hcs' : monomialBasis (m + 2) 0 ((List.range (m + 2)).map fun j =>
        (fwdDiff 1)^[j] f 0 * (((1 : Nat).ascFactorial j : Nat) : F)⁻¹) = cs := by
      rw [hcs]
      simp
    refine ⟨cs, ?_, by simpa using hlen, fun i hi => ?_⟩
    · have hlist : (List.range (m + 1 + 1)).map f =
          f 0 :: f 1 :: (List.range m).map fun i => f (i + 1 + 1) := by
        rw [map_range_succ, map_range_succ]
      have hlength : (f 0 :: f 1 :: (List.range m).map fun i => f (i + 1 + 1)).length = m + 2 := by
        simp
      rw [hlist] at hdd ⊢
      simp only [newtonInterpolation, hdd, hlength, hcs', Option.bind_eq_bind, Option.bind_some]
    · rw [hvalue]
      exact newtonValue_node (by omega) hne

/-- A polynomial is known by its values at as many points as it has coefficients. -/
theorem ofCoeffs_eq {cs ds : List F} {n : Nat} (hcs : cs.length = n) (hds : ds.length = n)
    (hne : ∀ k, 0 < k → k < n → (k : F) ≠ 0)
    (h : ∀ i < n, horner (i : F) cs = horner (i : F) ds) : ofCoeffs cs = ofCoeffs ds := by
  have hinj : Set.InjOn (fun i : Nat => (i : F)) (range n) := by
    intro i hi j hj hij
    rw [coe_range, Set.mem_Iio] at hi hj
    simp only at hij
    rcases lt_trichotomy i j with hlt | heq | hlt
    · refine absurd ?_ (hne (j - i) (by omega) (by omega))
      rw [Nat.cast_sub hlt.le, hij, sub_self]
    · exact heq
    · refine absurd ?_ (hne (i - j) (by omega) (by omega))
      rw [Nat.cast_sub hlt.le, hij, sub_self]
  refine Polynomial.eq_of_degrees_lt_of_eval_index_eq (range n) hinj ?_ ?_ fun i hi => ?_
  · rw [card_range, ← hcs]
    exact degree_ofCoeffs_lt cs
  · rw [card_range, ← hds]
    exact degree_ofCoeffs_lt ds
  · rw [eval_ofCoeffs, eval_ofCoeffs]
    exact h i (mem_range.mp hi)

/-! ## The interpolations recover the polynomial -/

namespace UniPoly

theorem fromEvalsDegree2_eq (c0 c1 c2 : F) :
    fromEvalsDegree2 (horner 0 [c0, c1, c2]) (horner 1 [c0, c1, c2]) (horner 2 [c0, c1, c2]) =
      ⟨[c0, c1, c2]⟩ := by
  have htwo := JoltField.two_ne_zero (F := F)
  simp only [fromEvalsDegree2, horner, List.foldr_cons, List.foldr_nil, UniPoly.mk.injEq,
    List.cons.injEq, and_true]
  refine ⟨by ring, ?_, ?_⟩
  · field_simp
    ring
  · field_simp
    ring

theorem fromEvalsDegree3_eq (hthree : (3 : F) ≠ 0) (c0 c1 c2 c3 : F) :
    fromEvalsDegree3 (horner 0 [c0, c1, c2, c3]) (horner 1 [c0, c1, c2, c3])
      (horner 2 [c0, c1, c2, c3]) (horner 3 [c0, c1, c2, c3]) = ⟨[c0, c1, c2, c3]⟩ := by
  have htwo := JoltField.two_ne_zero (F := F)
  have hsix : (6 : F) = 2 * 3 := by norm_num
  simp only [fromEvalsDegree3, horner, List.foldr_cons, List.foldr_nil, UniPoly.mk.injEq,
    List.cons.injEq, and_true, hsix]
  refine ⟨by ring, ?_, ?_, ?_⟩
  · field_simp
    ring
  · field_simp
    ring
  · field_simp
    ring

theorem powLoop_eq (result current : F) (e : Nat) : powLoop result current e = result * current ^ e := by
  fun_induction powLoop result current e with
  | case1 => simp
  | case2 result current e hne ih =>
    have hsquare : (current * current) ^ (e / 2) = current ^ (2 * (e / 2)) := by
      rw [← pow_two, ← pow_mul]
    by_cases hodd : e % 2 = 1
    · simp only [hodd, if_true, dite_true, hsquare] at ih ⊢
      rw [ih, mul_assoc, ← pow_succ']
      congr 2
      omega
    · simp only [hodd, if_false, dite_false, hsquare] at ih ⊢
      rw [ih]
      congr 2
      omega

theorem powU64_eq (base exp : Nat) : (powU64 base exp : F) = (base : F) ^ exp := by
  unfold powU64
  split_ifs with h
  · rw [h, pow_zero]
  · rw [powLoop_eq, one_mul]

/-- The case of any other number of values. -/
theorem fromEvalsToom_newton [DecidableEq F] {evals : List F} (h3 : evals.length ≠ 3)
    (h4 : evals.length ≠ 4) :
    fromEvalsToom evals = (do
      let leading ← evals.getLast?
      let reduced := evals.dropLast.mapIdx fun i e => e - leading * powU64 i (evals.length - 1)
      .some ⟨(← newtonInterpolation reduced) ++ [leading]⟩) := by
  unfold fromEvalsToom
  split
  · exact absurd rfl h3
  · exact absurd rfl h4
  · rfl

theorem horner_concat (x : F) (cs : List F) (leading : F) :
    horner x (cs ++ [leading]) = horner x cs + leading * x ^ cs.length := by
  rw [← eval_ofCoeffs, ofCoeffs_append, eval_add, eval_mul, eval_pow, eval_X, eval_ofCoeffs,
    eval_ofCoeffs]
  simp [horner, mul_comm]

theorem mapIdx_range {α β : Type} (n : Nat) (f : Nat → α) (g : Nat → α → β) :
    ((List.range n).map f).mapIdx g = (List.range n).map fun i => g i (f i) :=
  List.ext_getElem (by simp) fun i h1 h2 => by simp

/-- **The interpolation with a value at infinity**: from the values at the first
points and the leading coefficient, the polynomial. -/
theorem fromEvalsToom_eq [DecidableEq F] {cs : List F} (hpos : 0 < cs.length) (leading : F)
    (hne : ∀ k, 0 < k → k < cs.length → (k : F) ≠ 0) :
    ∃ p, fromEvalsToom (((List.range cs.length).map fun i : Nat => horner (i : F) (cs ++ [leading])) ++
        [leading]) = .some p ∧ p.coeffs.length = cs.length + 1 ∧
      p.toPolynomial = ofCoeffs (cs ++ [leading]) := by
  have htwo := JoltField.two_ne_zero (F := F)
  by_cases h2 : cs.length = 2
  · obtain ⟨c0, c1, rfl⟩ := List.length_eq_two.mp h2
    refine ⟨_, rfl, rfl, ?_⟩
    congr 1
    simp [horner]
  by_cases h3 : cs.length = 3
  · obtain ⟨c0, c1, c2, rfl⟩ := List.length_eq_three.mp h3
    refine ⟨_, rfl, rfl, ?_⟩
    have hquadratic : (c0 + 2 * (c1 + 2 * (c2 + 2 * leading)) + c0 - (c0 + (c1 + (c2 + leading))) -
        (c0 + (c1 + (c2 + leading))) - (leading + leading + leading + leading + leading + leading)) * 2⁻¹ =
        c2 := by
      field_simp
      ring
    congr 1
    simp [horner, hquadratic]
    ring
  · have hreduced : ((List.range cs.length).map fun i : Nat => horner (i : F) (cs ++ [leading])).mapIdx
        (fun i e => e - leading * powU64 i cs.length) =
        (List.range cs.length).map fun i : Nat => horner (i : F) cs := by
      rw [mapIdx_range]
      refine List.map_congr_left fun i _ => ?_
      rw [powU64_eq, horner_concat, add_sub_cancel_right]
    obtain ⟨coeffs, hcoeffs, hlen, hvalues⟩ :=
      newtonInterpolation_eq (f := fun i => horner (i : F) cs) hpos hne
    refine ⟨⟨coeffs ++ [leading]⟩, ?_, by simp [hlen], ?_⟩
    · rw [fromEvalsToom_newton (by simp; omega) (by simp; omega)]
      simp only [List.getLast?_concat, Option.bind_eq_bind, Option.bind_some, List.dropLast_concat,
        List.length_append, List.length_map, List.length_range, List.length_singleton,
        Nat.add_sub_cancel, hreduced, hcoeffs]
    · rw [UniPoly.toPolynomial, ofCoeffs_append, ofCoeffs_append, hlen,
        ofCoeffs_eq hlen rfl hne hvalues]

end UniPoly

end LightningJolt
