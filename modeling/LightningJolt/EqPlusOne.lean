/-
The polynomial of the successor (`jolt-core/src/poly/eq_plus_one_poly.rs`): its value at
two points, its table next to that of the equality polynomial, and the sum of two
products of tables that it splits into.
-/
import LightningJolt.EqBuilders

namespace LightningJolt

open Finset

variable {F : Type} [JoltField F]

/-! ## The source -/

namespace EqPlusOnePolynomial

/-- `evaluate`, the last coordinates the lowest bits. -/
def evaluate (x y : List F) : Option F :=
  let l := x.length
  if y.length = l then .some
    (∑ k ∈ range l,
      (∏ i ∈ range k, x.getD (l - 1 - i) 0 * (1 - y.getD (l - 1 - i) 0)) *
        ((1 - x.getD (l - 1 - k) 0) * y.getD (l - 1 - k) 0) *
          ∏ t ∈ range (l - (k + 1)),
            (x.getD (l - 1 - (k + 1 + t)) 0 * y.getD (l - 1 - (k + 1 + t)) 0 +
              (1 - x.getD (l - 1 - (k + 1 + t)) 0) * (1 - y.getD (l - 1 - (k + 1 + t)) 0)))
  else .none

/-- `eq_evals_helper`: of the entries at multiples of the step each pair is made from its first. -/
def eqEvalsHelper (eqEvals : List F) (r : List F) (i : Nat) : List F :=
  let step := 2 ^ (r.length - i)
  eqEvals.mapIdx fun index v =>
    if index % step = 0 then
      if index / step % 2 = 1 then eqEvals.getD (index - step) 0 * r.getD (i - 1) 0
      else v - v * r.getD (i - 1) 0
    else v

/-- An iteration of the loop of `evals`. -/
def evalsRound (r : List F) (state : List F × List F) (i : Nat) : List F × List F :=
  let step := 2 ^ (r.length - i)
  let halfStep := step / 2
  let rLowerProduct := (r.drop (i + 1)).foldl (· * ·) 1 * (1 - r.getD i 0)
  let eqPlusOneEvals := state.2.mapIdx fun index v =>
    if halfStep ≤ index ∧ (index - halfStep) % step = 0 then state.1.getD (index - halfStep) 0 * rLowerProduct
    else v
  (eqEvalsHelper state.1 r (i + 1), eqPlusOneEvals)

/-- `evals`: the tables of the equality polynomial and of the successor. -/
def evals (r : List F) (scalingFactor : Option F) : List F × List F :=
  let size := 2 ^ r.length
  (List.range r.length).foldl (evalsRound r)
    ((List.replicate size 0).set 0 (scalingFactor.getD 1), List.replicate size 0)

end EqPlusOnePolynomial

/-- `EqPlusOnePrefixSuffixPoly`. -/
structure EqPlusOnePrefixSuffixPoly (F : Type) where
  prefix0 : List F
  suffix0 : List F
  prefix1 : List F
  suffix1 : List F

namespace EqPlusOnePrefixSuffixPoly

/-- The tables of a point split after so many coordinates. -/
def splitAt (r : List F) (mid : Nat) : EqPlusOnePrefixSuffixPoly F :=
  let (rHi, rLo) := (r.take mid, r.drop mid)
  let isMaxEval := EqPolynomial.mle (List.replicate rLo.length 1) rLo
  { prefix0 := (EqPlusOnePolynomial.evals rLo .none).2
    suffix0 := (EqPlusOnePolynomial.evals rHi .none).1
    prefix1 := (List.replicate (2 ^ rLo.length) 0).set 0 isMaxEval
    suffix1 := (EqPlusOnePolynomial.evals rHi .none).2 }

/-- `EqPlusOnePrefixSuffixPoly::new`. -/
def new (r : List F) : EqPlusOnePrefixSuffixPoly F := splitAt r (r.length / 2)

/-- The table it stands for: the suffix decides the high bits of the index. -/
def table (p : EqPlusOnePrefixSuffixPoly F) : List F :=
  List.zipWith (· + ·) (tensor p.suffix0 p.prefix0) (tensor p.suffix1 p.prefix1)

end EqPlusOnePrefixSuffixPoly

/-! ## The successor -/

/-- The entry of the successor's table: the weight of the index in front. -/
def succAt (w : List F) (i : Nat) : F := if i = 0 then 0 else eqAt w (i - 1)

theorem eqAt_cons_low (x : F) (w : List F) {i : Nat} (h : i < 2 ^ w.length) :
    eqAt (x :: w) i = (1 - x) * eqAt w i := by
  have happend := eqAt_append [x] w 0 h
  rw [Nat.zero_mul, Nat.zero_add] at happend
  refine happend.trans ?_
  congr 1
  rw [eqAt, eqTable_singleton]
  rfl

theorem eqAt_cons_high (x : F) (w : List F) {i : Nat} (h : i < 2 ^ w.length) :
    eqAt (x :: w) (2 ^ w.length + i) = x * eqAt w i := by
  have happend := eqAt_append [x] w 1 h
  rw [Nat.one_mul] at happend
  refine happend.trans ?_
  congr 1
  rw [eqAt, eqTable_singleton]
  rfl

/-- The last entry: the selector of all ones. -/
theorem eqAt_last (w : List F) : eqAt w (2 ^ w.length - 1) = w.prod := by
  induction w with
  | nil => rfl
  | cons x w ih =>
    have hpos := Nat.two_pow_pos w.length
    rw [List.length_cons, Nat.pow_succ, show 2 ^ w.length * 2 - 1 = 2 ^ w.length + (2 ^ w.length - 1) by omega,
      eqAt_cons_high x w (by omega), ih, List.prod_cons]

theorem succAt_cons_low (x : F) (w : List F) {i : Nat} (h : i < 2 ^ w.length) :
    succAt (x :: w) i = (1 - x) * succAt w i := by
  rw [succAt, succAt]
  split_ifs
  · rw [mul_zero]
  · exact eqAt_cons_low x w (by omega)

/-- The carry out of the low bits ends at the first index of the upper half. -/
theorem succAt_cons_high (x : F) (w : List F) {i : Nat} (h : i < 2 ^ w.length) :
    succAt (x :: w) (2 ^ w.length + i) = x * succAt w i + if i = 0 then (1 - x) * w.prod else 0 := by
  have hpos := Nat.two_pow_pos w.length
  rw [succAt, if_neg (by omega), succAt]
  split_ifs with hi
  · rw [hi, Nat.add_zero, eqAt_cons_low x w (by omega), eqAt_last]
    ring
  · rw [show 2 ^ w.length + i - 1 = 2 ^ w.length + (i - 1) by omega, eqAt_cons_high x w (by omega), add_zero]

/-- The value of the successor's polynomial. -/
def succMle : List F → List F → F
  | x :: xs, y :: ys =>
    eqFactor x y * succMle xs ys + (1 - x) * y * (xs.prod * (ys.map fun y => 1 - y).prod)
  | _, _ => 0

/-- It is multilinear in the second point, with the table's entries at the indices. -/
theorem succMle_eq {x y : List F} (h : y.length = x.length) :
    succMle x y = ∑ j ∈ range (2 ^ x.length), succAt x j * eqAt y j := by
  induction x generalizing y with
  | nil =>
    obtain rfl := List.length_eq_zero_iff.mp h
    simp [succMle, succAt]
  | cons x xs ih =>
    obtain ⟨y, ys, rfl⟩ := List.exists_cons_of_length_eq_add_one h
    have hlength : ys.length = xs.length := by simpa using h
    have hpos := Nat.two_pow_pos xs.length
    have hlow : ∀ j ∈ range (2 ^ xs.length), succAt (x :: xs) j * eqAt (y :: ys) j =
        (1 - x) * (1 - y) * (succAt xs j * eqAt ys j) := by
      intro j hj
      rw [mem_range] at hj
      rw [succAt_cons_low x xs hj, eqAt_cons_low y ys (by rwa [hlength])]
      ring
    have hhigh : ∀ j ∈ range (2 ^ xs.length),
        succAt (x :: xs) (2 ^ xs.length + j) * eqAt (y :: ys) (2 ^ xs.length + j) =
          x * y * (succAt xs j * eqAt ys j) + if j = 0 then (1 - x) * y * (xs.prod * eqAt ys 0) else 0 := by
      intro j hj
      rw [mem_range] at hj
      have heq := eqAt_cons_high y ys (i := j) (by rwa [hlength])
      rw [hlength] at heq
      rw [succAt_cons_high x xs hj, heq]
      split_ifs with hzero
      · rw [hzero]
        ring
      · ring
    rw [List.length_cons, Nat.pow_succ, Nat.mul_two, sum_range_add, sum_congr rfl hlow, sum_congr rfl hhigh,
      sum_add_distrib, ← mul_sum, ← mul_sum, ← ih hlength, sum_ite_eq', if_pos (mem_range.mpr hpos),
      eqAt_zero, succMle, eqFactor]
    ring

/-! ## The corners of the cube -/

theorem length_cube (n : Nat) : (cube n : List (List F)).length = 2 ^ n := by
  induction n with
  | zero => rfl
  | succ n ih =>
    rw [cube, List.length_append, List.length_map, List.length_map, ih, Nat.pow_succ, Nat.mul_two]

/-- The bits of an index, the highest first. -/
def corner (n i : Nat) : List F := (cube n).getD i []

theorem corner_low {n i : Nat} (h : i < 2 ^ n) : (corner (n + 1) i : List F) = 0 :: corner n i := by
  have hlow : i < ((cube n : List (List F)).map (0 :: ·)).length := by
    rwa [List.length_map, length_cube]
  have hcube : i < (cube n : List (List F)).length := by rwa [length_cube]
  rw [corner, cube, List.getD_append _ _ _ _ hlow, List.getD_eq_getElem _ _ hlow, List.getElem_map, corner,
    List.getD_eq_getElem _ _ hcube]

theorem corner_high {n i : Nat} (h : i < 2 ^ n) :
    (corner (n + 1) (2 ^ n + i) : List F) = 1 :: corner n i := by
  have hhigh : i < ((cube n : List (List F)).map (1 :: ·)).length := by
    rwa [List.length_map, length_cube]
  have hlow : ((cube n : List (List F)).map (0 :: ·)).length = 2 ^ n := by
    rw [List.length_map, length_cube]
  have hcube : i < (cube n : List (List F)).length := by rwa [length_cube]
  rw [corner, cube, List.getD_append_right _ _ _ _ (by omega), hlow, Nat.add_sub_cancel_left,
    List.getD_eq_getElem _ _ hhigh, List.getElem_map, corner, List.getD_eq_getElem _ _ hcube]

/-- An index of one bit more. -/
theorem lt_two_pow_succ {n i : Nat} (h : i < 2 ^ (n + 1)) : i < 2 ^ n ∨ ∃ j < 2 ^ n, i = 2 ^ n + j := by
  rw [Nat.pow_succ] at h
  by_cases hlow : i < 2 ^ n
  · exact .inl hlow
  · exact .inr ⟨i - 2 ^ n, by omega, by omega⟩

theorem zero_corner {n i : Nat} (h : i < 2 ^ n) :
    ((corner n i : List F).map fun y => 1 - y).prod = if i = 0 then 1 else 0 := by
  induction n generalizing i with
  | zero =>
    obtain rfl : i = 0 := by simpa using h
    rfl
  | succ n ih =>
    have hpos := Nat.two_pow_pos n
    rcases lt_two_pow_succ h with hlow | ⟨j, hj, rfl⟩
    · rw [corner_low hlow, List.map_cons, List.prod_cons, ih hlow, sub_zero, one_mul]
    · rw [corner_high hj, List.map_cons, List.prod_cons, sub_self, zero_mul, if_neg (by omega)]

/-- At the corners of the cube it is the entry of the table. -/
theorem succMle_corner (x : List F) {i : Nat} (h : i < 2 ^ x.length) :
    succMle x (corner x.length i) = succAt x i := by
  induction x generalizing i with
  | nil =>
    obtain rfl : i = 0 := by simpa using h
    rfl
  | cons x xs ih =>
    rcases lt_two_pow_succ h with hlow | ⟨j, hj, rfl⟩
    · rw [List.length_cons, corner_low hlow, succMle, ih hlow, succAt_cons_low x xs hlow, eqFactor]
      ring
    · rw [List.length_cons, corner_high hj, succMle, ih hj, succAt_cons_high x xs hj, zero_corner hj, eqFactor]
      split_ifs <;> ring

/-! ## The sum over the lengths of the carry -/

theorem prod_getD (l : List F) (f : F → F) : ∏ i ∈ range l.length, f (l.getD i 0) = (l.map f).prod := by
  induction l with
  | nil => rfl
  | cons x l ih =>
    rw [List.length_cons, prod_range_succ', List.map_cons, List.prod_cons, mul_comm]
    simp only [List.getD_cons_succ, List.getD_cons_zero]
    rw [ih]

theorem succMle_eq_sum {x y : List F} (h : y.length = x.length) :
    succMle x y = ∑ k ∈ range x.length,
      (∏ i ∈ range k, x.getD (x.length - 1 - i) 0 * (1 - y.getD (x.length - 1 - i) 0)) *
        ((1 - x.getD (x.length - 1 - k) 0) * y.getD (x.length - 1 - k) 0) *
          ∏ t ∈ range (x.length - (k + 1)),
            (x.getD (x.length - 1 - (k + 1 + t)) 0 * y.getD (x.length - 1 - (k + 1 + t)) 0 +
              (1 - x.getD (x.length - 1 - (k + 1 + t)) 0) * (1 - y.getD (x.length - 1 - (k + 1 + t)) 0)) := by
  induction x generalizing y with
  | nil => cases y <;> rfl
  | cons x xs ih =>
    obtain ⟨y, ys, rfl⟩ := List.exists_cons_of_length_eq_add_one h
    have hlength : ys.length = xs.length := by simpa using h
    rw [succMle, ih hlength, List.length_cons, sum_range_succ]
    congr 1
    · rw [mul_sum]
      refine sum_congr rfl fun k hk => ?_
      rw [mem_range] at hk
      have hindex {i : Nat} (hi : i < xs.length) : xs.length + 1 - 1 - i = xs.length - 1 - i + 1 := by omega
      have hlower : ∏ i ∈ range k, (x :: xs).getD (xs.length + 1 - 1 - i) 0 *
          (1 - (y :: ys).getD (xs.length + 1 - 1 - i) 0) =
            ∏ i ∈ range k, xs.getD (xs.length - 1 - i) 0 * (1 - ys.getD (xs.length - 1 - i) 0) := by
        refine prod_congr rfl fun i hi => ?_
        rw [hindex ((mem_range.mp hi).trans hk), List.getD_cons_succ, List.getD_cons_succ]
      have hrest : xs.length + 1 - (k + 1) = xs.length - (k + 1) + 1 := by omega
      have hlast : xs.length + 1 - 1 - (k + 1 + (xs.length - (k + 1))) = 0 := by omega
      have hhigher : ∏ t ∈ range (xs.length - (k + 1)),
          ((x :: xs).getD (xs.length + 1 - 1 - (k + 1 + t)) 0 * (y :: ys).getD (xs.length + 1 - 1 - (k + 1 + t)) 0 +
            (1 - (x :: xs).getD (xs.length + 1 - 1 - (k + 1 + t)) 0) *
              (1 - (y :: ys).getD (xs.length + 1 - 1 - (k + 1 + t)) 0)) =
          ∏ t ∈ range (xs.length - (k + 1)),
            (xs.getD (xs.length - 1 - (k + 1 + t)) 0 * ys.getD (xs.length - 1 - (k + 1 + t)) 0 +
              (1 - xs.getD (xs.length - 1 - (k + 1 + t)) 0) * (1 - ys.getD (xs.length - 1 - (k + 1 + t)) 0)) := by
        refine prod_congr rfl fun t ht => ?_
        rw [mem_range] at ht
        simp only [hindex (show k + 1 + t < xs.length by omega), List.getD_cons_succ]
      rw [hlower, hindex hk, List.getD_cons_succ, List.getD_cons_succ, hrest, prod_range_succ, hhigher, hlast,
        List.getD_cons_zero, List.getD_cons_zero, eqFactor]
      ring
    · have hlower : ∏ i ∈ range xs.length, (x :: xs).getD (xs.length + 1 - 1 - i) 0 *
          (1 - (y :: ys).getD (xs.length + 1 - 1 - i) 0) = xs.prod * (ys.map fun y => 1 - y).prod := by
        have hlowest : ∀ i ∈ range xs.length, (x :: xs).getD (xs.length + 1 - 1 - i) 0 *
            (1 - (y :: ys).getD (xs.length + 1 - 1 - i) 0) =
              xs.getD (xs.length - 1 - i) 0 * (1 - ys.getD (xs.length - 1 - i) 0) := by
          intro i hi
          rw [mem_range] at hi
          rw [show xs.length + 1 - 1 - i = xs.length - 1 - i + 1 by omega, List.getD_cons_succ,
            List.getD_cons_succ]
        have hxs := prod_getD xs fun x => x
        rw [List.map_id'] at hxs
        rw [prod_congr rfl hlowest,
          prod_range_reflect (fun i => xs.getD i 0 * (1 - ys.getD i 0)) xs.length, prod_mul_distrib,
          hxs, ← hlength, prod_getD ys fun y => 1 - y]
      rw [hlower, show xs.length + 1 - 1 - xs.length = 0 by omega, Nat.sub_self, range_zero, prod_empty,
        List.getD_cons_zero, List.getD_cons_zero]
      ring

theorem evaluate_eq {x y : List F} (h : y.length = x.length) :
    EqPlusOnePolynomial.evaluate x y = .some (succMle x y) := by
  rw [succMle_eq_sum h]
  exact if_pos h

/-! ## The loop of the tables -/

namespace EqPlusOnePolynomial

/-- After so many coordinates: the table of the prefix at the multiples of the step, and the
entries of the successor at those indices. -/
structure Strided (k : F) (r : List F) (i : Nat) (state : List F × List F) : Prop where
  eqEvals_length : state.1.length = 2 ^ r.length
  eqPlusOne_length : state.2.length = 2 ^ r.length
  eqEvals : ∀ j < 2 ^ r.length, state.1.getD j 0 =
    if j % 2 ^ (r.length - i) = 0 then k * eqAt (r.take i) (j / 2 ^ (r.length - i)) else 0
  eqPlusOne : ∀ j < 2 ^ r.length, state.2.getD j 0 =
    if j % 2 ^ (r.length - i) = 0 then k * succAt r j else 0

theorem getD_mapIdx (l : List F) (f : Nat → F → F) {j : Nat} (h : j < l.length) :
    (l.mapIdx f).getD j 0 = f j (l.getD j 0) := by
  rw [List.getD_eq_getElem _ _ (by rwa [List.length_mapIdx]), List.getElem_mapIdx, List.getD_eq_getElem _ _ h]

theorem eqAt_snoc_even (u : List F) (x : F) (m : Nat) : eqAt (u ++ [x]) (m * 2) = eqAt u m * (1 - x) := by
  have happend := eqAt_append u [x] m (j := 0) (Nat.two_pow_pos _)
  refine happend.trans ?_
  rw [eqAt_zero]
  simp

theorem eqAt_snoc_odd (u : List F) (x : F) (m : Nat) : eqAt (u ++ [x]) (m * 2 + 1) = eqAt u m * x := by
  have happend := eqAt_append u [x] m (j := 1) (by simp)
  refine happend.trans ?_
  have hlast : eqAt [x] 1 = [x].prod := eqAt_last [x]
  rw [hlast, List.prod_singleton]

theorem strided_zero (k : F) (r : List F) :
    Strided k r 0 ((List.replicate (2 ^ r.length) 0).set 0 k, List.replicate (2 ^ r.length) 0) := by
  have hzero (j : Nat) : (List.replicate (2 ^ r.length) (0 : F)).getD j 0 = 0 := by
    rw [List.getD_eq_getElem?_getD, List.getElem?_replicate]
    split_ifs <;> rfl
  refine ⟨by simp, by simp, fun j hj => ?_, fun j hj => ?_⟩
  · rw [Nat.sub_zero, Nat.mod_eq_of_lt hj, Nat.div_eq_of_lt hj]
    by_cases h : j = 0
    · rw [if_pos h, h, List.getD_eq_getElem?_getD,
        List.getElem?_set_self (by rw [List.length_replicate]; exact Nat.two_pow_pos _)]
      exact (mul_one k).symm
    · have hkeep := hzero j
      rw [List.getD_eq_getElem?_getD] at hkeep
      rw [if_neg h, List.getD_eq_getElem?_getD, List.getElem?_set_ne (Ne.symm h), hkeep]
  · rw [Nat.sub_zero, Nat.mod_eq_of_lt hj, hzero]
    split_ifs with h
    · rw [h, succAt, if_pos rfl, mul_zero]
    · rfl

theorem strided_succ {k : F} {r : List F} {i : Nat} {state : List F × List F} (hi : i < r.length)
    (h : Strided k r i state) : Strided k r (i + 1) (evalsRound r state i) := by
  obtain ⟨hlength1, hlength2, heq, hplus⟩ := h
  have hpos := Nat.two_pow_pos (r.length - (i + 1))
  have hstep : 2 ^ (r.length - i) = 2 * 2 ^ (r.length - (i + 1)) := by
    rw [show r.length - i = r.length - (i + 1) + 1 by omega, Nat.pow_succ, Nat.mul_comm]
  have hri : r.getD i 0 = r[i] := List.getD_eq_getElem _ _ hi
  have htake : r.take (i + 1) = r.take i ++ [r[i]] := List.take_succ_eq_append_getElem hi
  have hsplit : r = r.take i ++ r[i] :: r.drop (i + 1) := by
    rw [List.getElem_cons_drop, List.take_append_drop]
  have hdrop : (r.drop (i + 1)).length = r.length - (i + 1) := List.length_drop
  rw [hstep] at heq hplus
  generalize hhalf : 2 ^ (r.length - (i + 1)) = half at *
  -- An index is off the new step, or at an even or an odd multiple of it.
  have hcases (j : Nat) : j % half ≠ 0 ∨ (∃ m, j = m * (2 * half)) ∨ ∃ m, j = m * (2 * half) + half := by
    by_cases hj : j % half = 0
    · obtain ⟨q, rfl⟩ := Nat.dvd_of_mod_eq_zero hj
      rcases Nat.even_or_odd' q with ⟨m, rfl | rfl⟩
      · exact .inr (.inl ⟨m, by ring⟩)
      · exact .inr (.inr ⟨m, by ring⟩)
    · exact .inl hj
  have hoff {j : Nat} (hj : j % half ≠ 0) : j % (2 * half) ≠ 0 := fun hzero =>
    hj (Nat.mod_eq_zero_of_dvd ((Nat.dvd_mul_left half 2).trans (Nat.dvd_of_mod_eq_zero hzero)))
  have heven (m : Nat) : m * (2 * half) % half = 0 := by
    rw [← Nat.mul_assoc, Nat.mul_mod_left]
  have hodd (m : Nat) : (m * (2 * half) + half) % half = 0 := by
    rw [Nat.add_mod_right, heven]
  have hentry {m : Nat} (hm : m * (2 * half) < 2 ^ r.length) :
      state.1.getD (m * (2 * half)) 0 = k * eqAt (r.take i) m := by
    rw [heq _ hm, if_pos (Nat.mul_mod_left _ _), Nat.mul_div_cancel _ (by omega)]
  refine ⟨?_, ?_, fun j hj => ?_, fun j hj => ?_⟩
  · rw [evalsRound, eqEvalsHelper, List.length_mapIdx, hlength1]
  · rw [evalsRound, List.length_mapIdx, hlength2]
  · rw [evalsRound, eqEvalsHelper]
    simp only [hhalf, Nat.add_sub_cancel, hri]
    rw [getD_mapIdx _ _ (by rwa [hlength1]), htake]
    rcases hcases j with hj' | ⟨m, rfl⟩ | ⟨m, rfl⟩
    · rw [if_neg hj', if_neg hj', heq j hj, if_neg (hoff hj')]
    · have hdiv : m * (2 * half) / half = m * 2 := by
        rw [← Nat.mul_assoc, Nat.mul_div_cancel _ hpos]
      rw [if_pos (heven m), if_pos (heven m), hdiv, if_neg (by omega), hentry hj, eqAt_snoc_even]
      ring
    · have hdiv : (m * (2 * half) + half) / half = m * 2 + 1 := by
        rw [Nat.add_div_right _ hpos, ← Nat.mul_assoc, Nat.mul_div_cancel _ hpos]
      rw [if_pos (hodd m), if_pos (hodd m), hdiv, if_pos (by omega), Nat.add_sub_cancel, hentry (by omega),
        eqAt_snoc_odd]
      ring
  · rw [evalsRound]
    simp only [hstep, hri, hhalf, Nat.mul_div_cancel_left _ (show 0 < 2 by decide)]
    rw [getD_mapIdx _ _ (by rwa [hlength2])]
    rcases hcases j with hj' | ⟨m, rfl⟩ | ⟨m, rfl⟩
    · have hnot : ¬ (half ≤ j ∧ (j - half) % (2 * half) = 0) := by
        rintro ⟨hle, hzero⟩
        obtain ⟨q, hq⟩ := Nat.dvd_of_mod_eq_zero hzero
        refine hj' ?_
        rw [show j = half * (2 * q + 1) by rw [show half * (2 * q + 1) = 2 * half * q + half by ring]; omega]
        exact Nat.mul_mod_right _ _
      rw [if_neg hnot, if_neg hj', hplus j hj, if_neg (hoff hj')]
    · have hnot : ¬ (half ≤ m * (2 * half) ∧ (m * (2 * half) - half) % (2 * half) = 0) := by
        rintro ⟨hle, hzero⟩
        obtain ⟨q, hq⟩ := Nat.dvd_of_mod_eq_zero hzero
        have hmq : m * (2 * half) = 2 * half * q + half := by omega
        have hmod := congrArg (· % (2 * half)) hmq
        simp only [Nat.mul_mod_left, Nat.mul_add_mod, Nat.mod_eq_of_lt (show half < 2 * half by omega)] at hmod
        omega
      rw [if_neg hnot, if_pos (heven m), hplus _ hj, if_pos (Nat.mul_mod_left _ _)]
    · have hcond : half ≤ m * (2 * half) + half ∧ (m * (2 * half) + half - half) % (2 * half) = 0 :=
        ⟨Nat.le_add_left _ _, by rw [Nat.add_sub_cancel, Nat.mul_mod_left]⟩
      have hlow : half - 1 < 2 ^ (r.drop (i + 1)).length := by
        rw [hdrop, hhalf]
        omega
      have hblock := eqAt_append (r.take i) (r[i] :: r.drop (i + 1)) m (j := half - 1)
        (by rw [List.length_cons, hdrop, Nat.pow_succ, hhalf]; omega)
      have hlast := eqAt_last (r.drop (i + 1))
      rw [hdrop, hhalf] at hlast
      rw [← hsplit, eqAt_cons_low _ _ hlow, hlast, List.length_cons, hdrop, Nat.pow_succ, hhalf,
        Nat.mul_comm half 2, ← Nat.add_sub_assoc hpos] at hblock
      rw [if_pos hcond, if_pos (hodd m), Nat.add_sub_cancel, hentry (by omega), succAt, if_neg (by omega), hblock,
        ← List.prod_eq_foldl]
      ring

theorem strided_foldl (k : F) (r : List F) {i : Nat} (hi : i ≤ r.length) :
    Strided k r i ((List.range i).foldl (evalsRound r)
      ((List.replicate (2 ^ r.length) 0).set 0 k, List.replicate (2 ^ r.length) 0)) := by
  induction i with
  | zero => exact strided_zero k r
  | succ i ih =>
    rw [List.range_succ, List.foldl_append]
    exact strided_succ hi (ih (Nat.le_of_succ_le hi))

theorem evals_eq (r : List F) (k : Option F) :
    evals r k = ((eqTable r).map (k.getD 1 * ·), (List.range (2 ^ r.length)).map fun j => k.getD 1 * succAt r j) := by
  obtain ⟨hlength1, hlength2, heq, hplus⟩ := strided_foldl (k.getD 1) r (Nat.le_refl _)
  refine Prod.ext (List.ext_getElem ?_ fun j h1 h2 => ?_) (List.ext_getElem ?_ fun j h1 h2 => ?_)
  · rw [evals, hlength1, List.length_map, length_eqTable]
  · have hj : j < 2 ^ r.length := hlength1 ▸ h1
    have hentry := heq j hj
    rw [Nat.sub_self, Nat.pow_zero, Nat.mod_one, if_pos rfl, Nat.div_one, List.take_length,
      List.getD_eq_getElem _ _ (hlength1.symm ▸ hj)] at hentry
    refine hentry.trans ?_
    rw [List.getElem_map, eqAt, List.getD_eq_getElem _ _ (by rwa [length_eqTable])]
  · rw [evals, hlength2, List.length_map, List.length_range]
  · have hj : j < 2 ^ r.length := hlength2 ▸ h1
    have hentry := hplus j hj
    rw [Nat.sub_self, Nat.pow_zero, Nat.mod_one, if_pos rfl, List.getD_eq_getElem _ _ (hlength2.symm ▸ hj)] at hentry
    refine hentry.trans ?_
    rw [List.getElem_map, List.getElem_range]

end EqPlusOnePolynomial

/-! ## The split -/

namespace EqPlusOnePrefixSuffixPoly

open EqPlusOnePolynomial

theorem mle_ones (w : List F) : EqPolynomial.mle (List.replicate w.length 1) w = w.prod := by
  induction w with
  | nil => rfl
  | cons x w ih =>
    rw [EqPolynomial.mle] at ih ⊢
    rw [List.length_cons, List.replicate_succ, List.zipWith_cons_cons, List.prod_cons, ih, List.prod_cons]
    ring

/-- The index in front of a block, or of a place in it. -/
theorem succAt_append (u v : List F) (i : Nat) {j : Nat} (hj : j < 2 ^ v.length) :
    succAt (u ++ v) (i * 2 ^ v.length + j) =
      eqAt u i * succAt v j + succAt u i * if j = 0 then v.prod else 0 := by
  have hpos := Nat.two_pow_pos v.length
  by_cases hzero : j = 0
  · rw [hzero, Nat.add_zero, if_pos rfl, succAt, succAt, succAt, if_pos rfl, mul_zero, zero_add]
    rcases i with _ | i
    · rw [Nat.zero_mul, if_pos rfl, if_pos rfl, zero_mul]
    · have hblock := eqAt_append u v i (j := 2 ^ v.length - 1) (by omega)
      rw [eqAt_last] at hblock
      rw [if_neg (Nat.mul_ne_zero (Nat.succ_ne_zero i) hpos.ne'), if_neg (Nat.succ_ne_zero i), Nat.add_sub_cancel,
        ← hblock, Nat.succ_mul]
      congr 1
      omega
  · rw [if_neg hzero, mul_zero, add_zero, succAt, succAt, if_neg (by omega), if_neg hzero,
      ← eqAt_append u v i (by omega)]
    congr 1
    omega

/-- The split at any place has the table of the whole point. -/
theorem table_splitAt (r : List F) {mid : Nat} (hmid : mid ≤ r.length) :
    (splitAt r mid).table = (evals r .none).2 := by
  have hsplit : r = r.take mid ++ r.drop mid := (List.take_append_drop mid r).symm
  have hhi : (r.take mid).length = mid := List.length_take_of_le hmid
  generalize hu : r.take mid = u at *
  generalize hv : r.drop mid = v at *
  have hlength : 2 ^ r.length = 2 ^ u.length * 2 ^ v.length := by
    rw [hsplit, List.length_append, Nat.pow_add]
  have hsuffix0 : (splitAt r mid).suffix0 = eqTable u := by
    simp [splitAt, evals_eq, hu]
  have hsuffix1 : (splitAt r mid).suffix1 = (List.range (2 ^ u.length)).map (succAt u) := by
    simp [splitAt, evals_eq, hu]
  have hprefix0 : (splitAt r mid).prefix0 = (List.range (2 ^ v.length)).map (succAt v) := by
    simp [splitAt, evals_eq, hv]
  have hprefix1 : (splitAt r mid).prefix1 = (List.replicate (2 ^ v.length) 0).set 0 v.prod := by
    rw [splitAt, hv]
    simp only [mle_ones]
  have hone : (evals r (.none : Option F)).2 = (List.range (2 ^ r.length)).map (succAt r) := by
    simp [evals_eq]
  have hmap (w : List F) {i : Nat} (hi : i < 2 ^ w.length) :
      ((List.range (2 ^ w.length)).map (succAt w)).getD i 0 = succAt w i := by
    rw [List.getD_eq_getElem?_getD, List.getElem?_map, List.getElem?_range hi]
    rfl
  have hcorner {j : Nat} (hj : j < 2 ^ v.length) :
      ((List.replicate (2 ^ v.length) (0 : F)).set 0 v.prod).getD j 0 = if j = 0 then v.prod else 0 := by
    rw [List.getD_eq_getElem?_getD, List.getElem?_set, List.getElem?_replicate, List.length_replicate]
    by_cases h : j = 0
    · rw [if_pos h.symm, if_pos (Nat.two_pow_pos _), if_pos h]
      rfl
    · rw [if_neg (Ne.symm h), if_pos hj, if_neg h]
      rfl
  rw [table, hsuffix0, hsuffix1, hprefix0, hprefix1, hone]
  refine List.ext_getElem ?_ fun n h1 h2 => ?_
  · simp [length_eqTable, hlength]
  have hn : n < 2 ^ u.length * 2 ^ v.length := by
    rwa [List.length_map, List.length_range, hlength] at h2
  have hpos := Nat.two_pow_pos v.length
  have hi : n / 2 ^ v.length < 2 ^ u.length := Nat.div_lt_of_lt_mul (by rwa [Nat.mul_comm])
  have hj : n % 2 ^ v.length < 2 ^ v.length := Nat.mod_lt _ hpos
  have hindex : n / 2 ^ v.length * 2 ^ v.length + n % 2 ^ v.length = n := by
    rw [Nat.mul_comm]
    exact Nat.div_add_mod n _
  have htensor (a b : List F) (hb : b.length = 2 ^ v.length) (h : n < (tensor a b).length) :
      (tensor a b)[n] = a.getD (n / 2 ^ v.length) 0 * b.getD (n % 2 ^ v.length) 0 := by
    have hget := getD_tensor a b (n / 2 ^ v.length) (j := n % 2 ^ v.length) (by rwa [hb])
    rwa [hb, hindex, List.getD_eq_getElem _ _ h] at hget
  rw [List.getElem_zipWith, htensor _ _ (by simp), htensor _ _ (by simp), hmap v hj, hmap u hi, hcorner hj,
    List.getElem_map, List.getElem_range]
  have happend := succAt_append u v (n / 2 ^ v.length) hj
  rw [hindex, ← hsplit] at happend
  exact happend.symm

end EqPlusOnePrefixSuffixPoly

theorem cube_eq_corner (n : Nat) : (cube n : List (List F)) = (List.range (2 ^ n)).map (corner n) := by
  refine List.ext_getElem (by rw [length_cube, List.length_map, List.length_range]) fun i h1 h2 => ?_
  rw [List.getElem_map, List.getElem_range, corner, List.getD_eq_getElem _ _ h1]

open EqPlusOnePolynomial EqPlusOnePrefixSuffixPoly

/-- **The polynomial of the successor**: its value is the multilinear extension, its tables are
those over the cube, and either split of a point stands for the same table. -/
theorem EqPlusOnePolynomial.successor (r : List F) (scalingFactor : Option F) :
    (∀ y : List F, y.length = r.length → evaluate r y = .some
      (∑ i ∈ range (2 ^ r.length), ∑ j ∈ range (2 ^ r.length), if j = i + 1 then eqAt r i * eqAt y j else 0)) ∧
    (evals r scalingFactor).1 = cubeTable (scalingFactor.getD 1) r ∧
    (evals r scalingFactor).2.map .some =
      (cube r.length).map (fun y => (evaluate r y).map (scalingFactor.getD 1 * ·)) ∧
    (∀ mid ≤ r.length, (splitAt r mid).table = (evals r .none).2) ∧
    (new r).table = (evals r .none).2 := by
  refine ⟨fun y hy => ?_, ?_, ?_, fun mid hmid => table_splitAt r hmid,
    table_splitAt r (Nat.div_le_self _ _)⟩
  · have hpos := Nat.two_pow_pos r.length
    have hinner : ∀ j ∈ range (2 ^ r.length), ∑ i ∈ range (2 ^ r.length),
        (if j = i + 1 then eqAt r i * eqAt y j else 0) = succAt r j * eqAt y j := by
      intro j hj
      rw [mem_range] at hj
      rcases j with _ | j
      · rw [succAt, if_pos rfl, zero_mul]
        exact sum_eq_zero fun i _ => if_neg (by omega)
      · have hterm : ∀ i ∈ range (2 ^ r.length), (if j + 1 = i + 1 then eqAt r i * eqAt y (j + 1) else 0) =
            if i = j then eqAt r j * eqAt y (j + 1) else 0 := by
          intro i _
          by_cases h : i = j
          · rw [if_pos (by omega), if_pos h, h]
          · rw [if_neg (by omega), if_neg h]
        rw [sum_congr rfl hterm, sum_ite_eq', if_pos (mem_range.mpr (by omega)), succAt,
          if_neg (Nat.succ_ne_zero j), Nat.add_sub_cancel]
    rw [evaluate_eq hy, succMle_eq hy, sum_comm, sum_congr rfl hinner]
  · rw [evals_eq, cubeTable_eq]
  · rw [evals_eq, cube_eq_corner, List.map_map, List.map_map]
    refine List.map_congr_left fun i hi => ?_
    have hi := List.mem_range.mp hi
    have hlength : (corner r.length i : List F).length = r.length := by
      refine length_of_mem_cube ?_
      rw [corner, List.getD_eq_getElem _ _ (by rwa [length_cube])]
      exact List.getElem_mem _
    rw [Function.comp, Function.comp, evaluate_eq hlength, succMle_corner r hi, Option.map_some]

end LightningJolt
