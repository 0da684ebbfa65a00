/-
Inner products of two vectors under a bilinear map: how they split over halves, and what folding
one vector by a scalar and the other by its inverse does to them.
-/
import Mathlib.LinearAlgebra.BilinearMap
import Mathlib.Algebra.BigOperators.Intervals
import Mathlib.Tactic.Module

namespace LightningJolt

open Finset

variable {R A B C : Type} [CommRing R] [AddCommGroup A] [Module R A] [AddCommGroup B] [Module R B]
  [AddCommGroup C] [Module R C]

/-- The sum of `e xᵢ yᵢ`. -/
def dot (e : A →ₗ[R] B →ₗ[R] C) (xs : List A) (ys : List B) : C := (List.zipWith (fun x y => e x y) xs ys).sum

/-- `k • xs + ys`, entry by entry. -/
def axpy (k : R) (xs ys : List A) : List A := List.zipWith (fun x y => k • x + y) xs ys

/-- A sum of bases with scalars. -/
def msm (bases : List A) (scalars : List R) : A := dot (LinearMap.lsmul R A).flip bases scalars

section Dot

variable (e : A →ₗ[R] B →ₗ[R] C)

@[simp] theorem dot_nil_left (ys : List B) : dot e [] ys = 0 := by simp [dot]

@[simp] theorem dot_nil_right (xs : List A) : dot e xs [] = 0 := by simp [dot]

@[simp] theorem dot_cons (x : A) (xs : List A) (y : B) (ys : List B) :
    dot e (x :: xs) (y :: ys) = e x y + dot e xs ys := by simp [dot]

theorem dot_flip (xs : List A) (ys : List B) : dot e.flip ys xs = dot e xs ys := by
  rw [dot, dot, List.zipWith_comm]
  rfl

theorem dot_append {xs : List A} {ys : List B} (h : xs.length = ys.length) (xs' : List A) (ys' : List B) :
    dot e (xs ++ xs') (ys ++ ys') = dot e xs ys + dot e xs' ys' := by
  rw [dot, List.zipWith_append h, List.sum_append]
  rfl

/-- The two halves of an inner product. -/
theorem dot_take_drop {xs : List A} {ys : List B} (n : Nat) (hx : n ≤ xs.length) (hy : n ≤ ys.length) :
    dot e xs ys = dot e (xs.take n) (ys.take n) + dot e (xs.drop n) (ys.drop n) := by
  have h : (xs.take n).length = (ys.take n).length := by simp [hx, hy]
  rw [← dot_append e h, List.take_append_drop, List.take_append_drop]

theorem dot_replicate_zero (xs : List A) (n : Nat) : dot e xs (List.replicate n 0) = 0 := by
  induction xs generalizing n with
  | nil => simp
  | cons x xs ih => cases n <;> simp [List.replicate_succ, ih]

theorem dot_zeros_left (ys : List B) (n : Nat) : dot e (List.replicate n 0) ys = 0 := by
  rw [← dot_flip, dot_replicate_zero]

/-- The inner product by positions, a missing entry counting as zero. -/
theorem dot_eq_sum {xs : List A} {n : Nat} (h : xs.length ≤ n) (ys : List B) :
    dot e xs ys = ∑ i ∈ range n, e (xs.getD i 0) (ys.getD i 0) := by
  induction xs generalizing ys n with
  | nil => simp
  | cons x xs ih =>
    obtain ⟨n, rfl⟩ : ∃ m, n = m + 1 := ⟨n - 1, by simp at h; omega⟩
    have hrest := ih (n := n) (by simpa using h)
    rw [sum_range_succ']
    cases ys with
    | nil => simp
    | cons y ys => simp [hrest, add_comm]

/-! ## Folding -/

@[simp] theorem length_axpy (k : R) (xs ys : List A) :
    (axpy k xs ys).length = min xs.length ys.length := by simp [axpy]

theorem take_axpy (k : R) (xs ys : List A) (n : Nat) :
    (axpy k xs ys).take n = axpy k (xs.take n) (ys.take n) := List.take_zipWith

theorem drop_axpy (k : R) (xs ys : List A) (n : Nat) :
    (axpy k xs ys).drop n = axpy k (xs.drop n) (ys.drop n) := List.drop_zipWith

theorem dot_axpy_left (k : R) {xs xs' : List A} {ys : List B} (h : xs.length = ys.length)
    (h' : xs'.length = ys.length) : dot e (axpy k xs xs') ys = k • dot e xs ys + dot e xs' ys := by
  induction xs generalizing xs' ys with
  | nil =>
    cases ys with
    | nil => simp [axpy]
    | cons y ys => simp at h
  | cons x xs ih =>
    cases ys with
    | nil => simp at h
    | cons y ys =>
      cases xs' with
      | nil => simp at h'
      | cons x' xs' =>
        have hlen : xs.length = ys.length := by simpa using h
        have hlen' : xs'.length = ys.length := by simpa using h'
        have hrest := ih hlen hlen'
        rw [axpy] at hrest
        simp only [axpy, List.zipWith_cons_cons, dot_cons, hrest, map_add, map_smul, LinearMap.add_apply,
          LinearMap.smul_apply]
        module

theorem dot_axpy_right (k : R) {xs : List A} {ys ys' : List B} (h : ys.length = xs.length)
    (h' : ys'.length = xs.length) : dot e xs (axpy k ys ys') = k • dot e xs ys + dot e xs ys' := by
  rw [← dot_flip, dot_axpy_left e.flip k h h', dot_flip, dot_flip]

/-- **A fold of both vectors**: the inner product of the whole and the two cross terms. -/
theorem dot_fold {k k' : R} (hk : k * k' = 1) {xl xr : List A} {yl yr : List B} (hx : xl.length = yl.length)
    (hr : xr.length = yl.length) (hy : yr.length = yl.length) :
    dot e (axpy k xl xr) (axpy k' yl yr) =
      dot e (xl ++ xr) (yl ++ yr) + k • dot e xl yr + k' • dot e xr yl := by
  have hlen : (axpy k' yl yr).length = yl.length := by simp [hy]
  rw [dot_axpy_left e k (by rw [hlen, hx]) (by rw [hlen, hr]), dot_axpy_right e k' hx.symm (by rw [hy, hx]),
    dot_axpy_right e k' hr.symm (by rw [hy, hr]), dot_append e hx, smul_add, smul_smul, hk, one_smul]
  module

/-- The fold of the halves of two vectors. -/
theorem dot_fold_halves {k k' : R} (hk : k * k' = 1) {n : Nat} {xs : List A} {ys : List B} (hx : xs.length = n + n)
    (hy : ys.length = n + n) :
    dot e (axpy k (xs.take n) (xs.drop n)) (axpy k' (ys.take n) (ys.drop n)) =
      dot e xs ys + k • dot e (xs.take n) (ys.drop n) + k' • dot e (xs.drop n) (ys.take n) := by
  rw [dot_fold e hk (by simp [hx, hy]) (by simp [hx, hy]) (by simp [hy]), List.take_append_drop,
    List.take_append_drop]

/-- Two vectors, each with a multiple of another added to it. -/
theorem dot_axpy_axpy {k k' : R} (hk : k * k' = 1) {xs xs' : List A} {ys ys' : List B}
    (hx : xs.length = ys.length) (hr : xs'.length = ys.length) (hy : ys'.length = ys.length) :
    dot e (axpy k xs xs') (axpy k' ys ys') =
      dot e xs ys + dot e xs' ys' + k • dot e xs ys' + k' • dot e xs' ys := by
  rw [dot_fold e hk hx hr hy, dot_append e hx]

end Dot

/-! ## Sums of bases -/

@[simp] theorem msm_nil (scalars : List R) : msm ([] : List A) scalars = 0 := dot_nil_left _ _

@[simp] theorem msm_nil_right (bases : List A) : msm bases ([] : List R) = 0 := dot_nil_right _ _

@[simp] theorem msm_cons (b : A) (bases : List A) (k : R) (scalars : List R) :
    msm (b :: bases) (k :: scalars) = k • b + msm bases scalars := by simp [msm]

/-- A sum of bases in the first place of the map. -/
theorem apply_msm (e : A →ₗ[R] B →ₗ[R] C) (bases : List A) (scalars : List R) (y : B) :
    e (msm bases scalars) y = dot e bases (scalars.map (· • y)) := by
  induction bases generalizing scalars with
  | nil => simp
  | cons b bases ih => cases scalars <;> simp [ih]

/-- Multiples of one base. -/
theorem msm_multiples (b : A) (ks scalars : List R) :
    msm (ks.map (· • b)) scalars = msm ks scalars • b := by
  induction ks generalizing scalars with
  | nil => simp
  | cons k ks ih =>
    cases scalars with
    | nil => simp
    | cons c scalars => simp [ih, add_smul, mul_smul]

theorem msm_eq_sum {bases : List A} {n : Nat} (h : bases.length ≤ n) (scalars : List R) :
    msm bases scalars = ∑ i ∈ range n, scalars.getD i 0 • bases.getD i 0 := by
  rw [msm, dot_eq_sum _ h]
  rfl

end LightningJolt
