/-
Products of linear factors given by their values at zero and at one: the polynomial they
multiply to, the grid of its values with the leading coefficient, and the next value, which
as many values in a row as its degree and this coefficient determine.
-/
import LightningJolt.DenseBinding

namespace LightningJolt

open Polynomial

variable {F : Type} [JoltField F]

/-! ## Products of linear factors -/

/-- The values of the factors at a point, multiplied. -/
def productAt (pairs : List (F × F)) (x : F) : F := (pairs.map fun p => line x p.1 p.2).prod

/-- The leading coefficients of the factors, multiplied: the value at infinity. -/
def leadingProduct (pairs : List (F × F)) : F := (pairs.map fun p => p.2 - p.1).prod

/-- The value at a natural number. -/
def valueAt (pairs : List (F × F)) (k : Nat) : F := productAt pairs k

/-- The values at `1` to `m`, with the one at infinity. -/
def gridTo (m : Nat) (pairs : List (F × F)) : List F :=
  tableOf m (fun k => valueAt pairs (k + 1)) ++ [leadingProduct pairs]

/-- The values at `1, …, d - 1` and at infinity, for `d` factors. -/
def grid (pairs : List (F × F)) : List F := gridTo (pairs.length - 1) pairs

/-- The product as a polynomial. -/
noncomputable def productPoly (pairs : List (F × F)) : F[X] :=
  (pairs.map fun p => C p.1 + X * C (p.2 - p.1)).prod

theorem productAt_append (ps qs : List (F × F)) (x : F) :
    productAt (ps ++ qs) x = productAt ps x * productAt qs x := by
  rw [productAt, List.map_append, List.prod_append]
  rfl

theorem valueAt_append (ps qs : List (F × F)) (k : Nat) :
    valueAt (ps ++ qs) k = valueAt ps k * valueAt qs k :=
  productAt_append ps qs k

theorem leadingProduct_append (ps qs : List (F × F)) :
    leadingProduct (ps ++ qs) = leadingProduct ps * leadingProduct qs := by
  rw [leadingProduct, List.map_append, List.prod_append]
  rfl

theorem gridTo_append (m : Nat) (ps qs : List (F × F)) :
    gridTo m (ps ++ qs) = List.zipWith (· * ·) (gridTo m ps) (gridTo m qs) := by
  rw [gridTo, gridTo, gridTo, List.zipWith_append (by rw [length_tableOf, length_tableOf]), zipWith_tableOf,
    List.zipWith_cons_cons, List.zipWith_nil_left, leadingProduct_append]
  simp only [valueAt_append]

theorem length_grid {pairs : List (F × F)} (h : pairs ≠ []) : (grid pairs).length = pairs.length := by
  have hpos := List.length_pos_iff.mpr h
  rw [grid, gridTo, List.length_append, length_tableOf, List.length_singleton]
  omega

theorem eval_productPoly (pairs : List (F × F)) (x : F) :
    (productPoly pairs).eval x = productAt pairs x := by
  rw [productPoly, eval_list_prod, productAt, List.map_map]
  congr 1
  refine List.map_congr_left fun p _ => ?_
  simp [line]

theorem natDegree_factor_le (p : F × F) : (C p.1 + X * C (p.2 - p.1)).natDegree ≤ 1 := by
  rw [mul_comm X]
  exact natDegree_linear_le.trans' (by rw [add_comm])

theorem natDegree_productPoly_le (pairs : List (F × F)) :
    (productPoly pairs).natDegree ≤ pairs.length := by
  induction pairs with
  | nil => simp [productPoly]
  | cons p pairs ih =>
    rw [productPoly, List.map_cons, List.prod_cons, List.length_cons, Nat.add_comm]
    exact natDegree_mul_le.trans (Nat.add_le_add (natDegree_factor_le p) ih)

theorem coeff_productPoly (pairs : List (F × F)) :
    (productPoly pairs).coeff pairs.length = leadingProduct pairs := by
  have hcoeff := coeff_list_prod_of_natDegree_le (pairs.map fun p => C p.1 + X * C (p.2 - p.1)) 1
    (by
      intro q hq
      obtain ⟨p, _, rfl⟩ := List.mem_map.mp hq
      exact natDegree_factor_le p)
  rw [List.length_map, Nat.mul_one, List.map_map] at hcoeff
  rw [productPoly, hcoeff, leadingProduct]
  congr 1
  refine List.map_congr_left fun p _ => ?_
  simp

/-! ## The next value -/

/-- **The differences of as high an order as there are factors** are a constant. -/
theorem sum_choose_valueAt (pairs : List (F × F)) (m : Nat) :
    ∑ k ∈ Finset.range (pairs.length + 1), ((-1 : ℤ) ^ (pairs.length - k) * pairs.length.choose k) •
      valueAt pairs (m + k) = leadingProduct pairs * (pairs.length.factorial : F) := by
  have hvalues : productAt pairs = fun x => (productPoly pairs).eval x :=
    funext fun x => (eval_productPoly pairs x).symm
  have hsum := fwdDiff_iter_eq_sum_shift (1 : F) (productAt pairs) pairs.length m
  simp only [valueAt, Nat.cast_add]
  simp only [nsmul_one] at hsum
  rw [← hsum, hvalues]
  rcases (natDegree_productPoly_le pairs).lt_or_eq with hlt | heq
  · have hzero : leadingProduct pairs = 0 := by
      rw [← coeff_productPoly, coeff_eq_zero_of_natDegree_lt hlt]
    rw [fwdDiff_iter_eq_zero_of_degree_lt hlt, hzero, zero_mul]
    rfl
  · have hconstant := fwdDiff_iter_degree_eq_factorial (productPoly pairs)
    rw [leadingCoeff, heq, coeff_productPoly] at hconstant
    rw [hconstant]
    rfl

/-- Values appended one by one, each from the `k` before it. -/
def slide {α : Type} (next : List α → α) (k steps : Nat) (window : List α) : List α :=
  (List.range steps).foldl (fun w i => w ++ [next ((w.drop i).take k)]) window

/-- What continues a function by one value from any window continues it by all of them. -/
theorem slide_tableOf {α : Type} {next : List α → α} {k : Nat} {f : Nat → α}
    (h : ∀ i, next (tableOf k fun j => f (i + j)) = f (i + k)) (steps : Nat) :
    slide next k steps (tableOf k f) = tableOf (k + steps) f := by
  induction steps with
  | zero => rfl
  | succ steps ih =>
    rw [slide] at ih
    rw [slide, List.range_succ, List.foldl_append, ih, List.foldl_cons, List.foldl_nil, Nat.add_comm k steps,
      tableOf_add, List.drop_left' length_tableOf, List.take_of_length_le (by rw [length_tableOf]), h,
      ← tableOf_add, Nat.add_comm k, Nat.add_right_comm, tableOf_add (steps + k) 1]
    rfl

end LightningJolt
