/-
Interpolation and compression of a univariate polynomial
(`jolt-core/src/poly/unipoly.rs`): from its values, from values and a hint, from a
value at infinity, and from the compressed form.
-/
import LightningJolt.Interpolation
import LightningJolt.OnChainSumcheck

namespace LightningJolt

variable {F C : Type} [JoltField F] [Challenge C F]

/-! ## The other direction -/

/-- `from_evals_and_hint`, without the value at one. -/
def UniPoly.fromEvalsAndHint [DecidableEq F] (hint : F) : List F → Option (UniPoly F)
  | [] => .none
  | [e0, e2] => .some (fromEvalsDegree2 e0 (hint - e0) e2)
  | [e0, e2, e3] => .some (fromEvalsDegree3 e0 (hint - e0) e2 e3)
  | e0 :: evals => fromEvals (e0 :: (hint - e0) :: evals)

/-- `decompress`. -/
def CompressedUniPoly.decompress (p : CompressedUniPoly F) (hint : F) : Option (UniPoly F) :=
  match p.coeffsExceptLinearTerm with
  | [] => .none
  | constant :: rest => .some ⟨constant :: linearTerm hint constant rest :: rest⟩

namespace UniPoly

/-! ## Round trips -/

/-- Coefficients are known by the polynomial and their number. -/
theorem eq_of_ofCoeffs {cs ds : List F} (hlength : cs.length = ds.length) (h : ofCoeffs cs = ofCoeffs ds) :
    cs = ds := by
  refine List.ext_getElem hlength fun n hn hn' => ?_
  have hcoeff := congrArg (fun p => p.coeff n) h
  simp only [coeff_ofCoeffs] at hcoeff
  rwa [List.getD_eq_getElem _ _ hn, List.getD_eq_getElem _ _ hn'] at hcoeff

/-- The case of any other number of values. -/
theorem fromEvals_newton [DecidableEq F] {evals : List F} (h3 : evals.length ≠ 3) (h4 : evals.length ≠ 4) :
    fromEvals evals = (newtonInterpolation evals).map (⟨·⟩) := by
  unfold fromEvals
  split
  · exact absurd rfl h3
  · exact absurd rfl h4
  · rfl

/-- The values at the first points. -/
def values (cs : List F) : List F := (List.range cs.length).map fun i : Nat => horner (i : F) cs

theorem fromEvals_values [DecidableEq F] {cs : List F} (hpos : 0 < cs.length)
    (hne : ∀ k, 0 < k → k < cs.length → (k : F) ≠ 0) : fromEvals (values cs) = .some ⟨cs⟩ := by
  by_cases h3 : cs.length = 3
  · obtain ⟨c0, c1, c2, rfl⟩ := List.length_eq_three.mp h3
    have hvalues : values [c0, c1, c2] =
        [horner 0 [c0, c1, c2], horner 1 [c0, c1, c2], horner 2 [c0, c1, c2]] := by
      simp [values, List.range_succ]
    rw [hvalues]
    exact congrArg Option.some (fromEvalsDegree2_eq c0 c1 c2)
  by_cases h4 : cs.length = 4
  · obtain ⟨c0, c1, c2, c3, rfl⟩ := List.length_eq_four.mp h4
    have hvalues : values [c0, c1, c2, c3] = [horner 0 [c0, c1, c2, c3], horner 1 [c0, c1, c2, c3],
        horner 2 [c0, c1, c2, c3], horner 3 [c0, c1, c2, c3]] := by
      simp [values, List.range_succ]
    have hthree : (3 : F) ≠ 0 := by exact_mod_cast hne 3 (by decide) (by simp)
    rw [hvalues]
    exact congrArg Option.some (fromEvalsDegree3_eq hthree c0 c1 c2 c3)
  · obtain ⟨coeffs, hcoeffs, hlength, hvalues⟩ :=
      newtonInterpolation_eq (f := fun i => horner (i : F) cs) hpos hne
    rw [fromEvals_newton (by simpa [values] using h3) (by simpa [values] using h4), values, hcoeffs]
    exact congrArg _ (congrArg _ (eq_of_ofCoeffs hlength (ofCoeffs_eq hlength rfl hne hvalues)))

/-- The hint is what the missing value adds to the first. -/
theorem fromEvalsAndHint_cons [DecidableEq F] (hint e0 : F) (evals : List F) :
    fromEvalsAndHint hint (e0 :: evals) = fromEvals (e0 :: (hint - e0) :: evals) := by
  match evals with
  | [] => rfl
  | [e2] => rfl
  | [e2, e3] => rfl
  | e2 :: e3 :: e4 :: evals => rfl

theorem fromEvalsToom_values [DecidableEq F] {front : List F} (hpos : 0 < front.length) (leading : F)
    (hne : ∀ k, 0 < k → k < front.length → (k : F) ≠ 0) :
    fromEvalsToom ((values (front ++ [leading])).dropLast ++ (front ++ [leading]).getLast?.toList) =
      .some ⟨front ++ [leading]⟩ := by
  obtain ⟨p, hp, hlength, heq⟩ := fromEvalsToom_eq hpos leading hne
  have hdrop : (values (front ++ [leading])).dropLast =
      (List.range front.length).map fun i : Nat => horner (i : F) (front ++ [leading]) := by
    rw [values, List.length_append, List.length_singleton, List.range_succ, List.map_append,
      List.map_singleton, List.dropLast_concat]
  rw [hdrop, List.getLast?_concat, Option.toList_some, hp]
  have hcoeffs : p.coeffs = front ++ [leading] :=
    eq_of_ofCoeffs (by rw [hlength, List.length_append, List.length_singleton]) heq
  rw [← hcoeffs]

/-- The linear term is what the other terms leave of the hint. -/
theorem decompress_compress (c l : F) (rest : List F) :
    (CompressedUniPoly.mk (c :: rest)).decompress (sumOverBit ⟨c :: l :: rest⟩) =
      .some ⟨c :: l :: rest⟩ := by
  have hlinear : CompressedUniPoly.linearTerm (sumOverBit ⟨c :: l :: rest⟩) c rest = l := by
    rw [CompressedUniPoly.linearTerm_eq, sumOverBit, horner_one, List.sum_cons, List.sum_cons]
    simp only [horner, List.foldr_cons, zero_mul, add_zero]
    ring
  simp only [CompressedUniPoly.decompress, hlinear]

/-- What the interpolations and the compression have to give back. -/
structure Survives (C : Type) [Challenge C F] [DecidableEq F] (cs : List F) : Prop where
  evals : fromEvals (values cs) = .some ⟨cs⟩
  evalsAndHint : fromEvalsAndHint (sumOverBit ⟨cs⟩) ((values cs).eraseIdx 1) = .some ⟨cs⟩
  evalsToom : fromEvalsToom ((values cs).dropLast ++ cs.getLast?.toList) = .some ⟨cs⟩
  decompress : ∃ q, compress ⟨cs⟩ = .some q ∧ q.decompress (sumOverBit ⟨cs⟩) = .some ⟨cs⟩
  evalFromHint : ∃ q, compress ⟨cs⟩ = .some q ∧
    ∀ x : C, q.evalFromHint (sumOverBit ⟨cs⟩) x = .some (horner (Challenge.into x) cs)

end UniPoly

open UniPoly

/-- **A polynomial comes back from its values and from its compressed form exactly where
there is a linear term**: at infinity a constant is taken for one, and it cannot be compressed. -/
theorem UniPoly.survives_iff [DecidableEq F] (cs : List F)
    (hne : ∀ k, 0 < k → k < cs.length → (k : F) ≠ 0) : Survives C cs ↔ 2 ≤ cs.length := by
  constructor
  · intro h
    obtain ⟨q, hq, -⟩ := h.decompress
    match cs, hq with
    | c :: l :: rest, _ => exact Nat.le_add_left 2 _
  intro hlength
  obtain ⟨c, l, rest, rfl⟩ : ∃ c l rest, cs = c :: l :: rest := by
    match cs, hlength with
    | c :: l :: rest, _ => exact ⟨c, l, rest, rfl⟩
  obtain ⟨vs, hvs⟩ : ∃ vs, values (c :: l :: rest) =
      horner 0 (c :: l :: rest) :: horner 1 (c :: l :: rest) :: vs := by
    refine ⟨(List.range rest.length).map fun i : Nat => horner ((i + 1 + 1 : Nat) : F) (c :: l :: rest), ?_⟩
    rw [values, List.length_cons, List.length_cons, map_range_succ, map_range_succ, Nat.cast_zero,
      Nat.cast_add, Nat.cast_zero, Nat.cast_one, zero_add]
  have hevals := @fromEvals_values F _ _ (c :: l :: rest) (Nat.succ_pos _) hne
  refine ⟨hevals, ?_, ?_, ⟨_, rfl, decompress_compress c l rest⟩, ⟨_, rfl, fun x => ?_⟩⟩
  · rw [hvs, List.eraseIdx_cons_succ, List.eraseIdx_cons_zero, fromEvalsAndHint_cons, sumOverBit,
      add_sub_cancel_left, ← hvs, hevals]
  · obtain ⟨front, leading, hfront⟩ : ∃ front leading, c :: l :: rest = front ++ [leading] :=
      ⟨_, _, (List.dropLast_append_getLast (List.cons_ne_nil c (l :: rest))).symm⟩
    rw [hfront, List.length_append, List.length_singleton] at hlength hne
    rw [hfront]
    exact fromEvalsToom_values (by omega) leading fun k hk hlt => hne k hk (by omega)
  · rw [CompressedUniPoly.evalFromHint_compress (p := ⟨c :: l :: rest⟩) rfl,
      evaluate_eq (List.cons_ne_nil _ _)]

/-- A constant is read as the slope of a line from its value at infinity. -/
theorem UniPoly.constant_lost : fromEvalsToom ([3] : List Fr) = .some ⟨[0, 3]⟩ ∧
    compress (⟨[3]⟩ : UniPoly Fr) = .none ∧ ¬ Survives Fr ([3] : List Fr) := by
  refine ⟨?_, rfl, fun h => ?_⟩
  · decide
  · obtain ⟨q, hq, -⟩ := h.decompress
    cases hq

theorem UniPoly.survives_cubic : Survives Fr ([1, 5, 0, 2] : List Fr) := by
  have hsmall : ∀ k < 4, 0 < k → ((k : Nat) : Fr) ≠ 0 := by decide
  exact (survives_iff ([1, 5, 0, 2] : List Fr) fun k hk hlt => hsmall k hlt hk).mpr (by decide)

end LightningJolt
