/-
The bucket method for a sum of multiples of group elements: each element goes into the bucket of its
digit, a running sum from the last bucket down weighs the buckets, and the windows of digits follow
one another from the highest.
-/
import Mathlib.Algebra.BigOperators.Group.Finset.Basic
import Mathlib.Algebra.BigOperators.GroupWithZero.Action
import Mathlib.Algebra.Module.NatInt
import Mathlib.Algebra.Order.Group.Nat
import Mathlib.Tactic.Abel

namespace LightningJolt.Buckets

open Finset

variable {G : Type} [AddCommGroup G]

/-- The buckets, each with its number as weight, the first of them numbered `d`. -/
def weighted (d : Nat) : List G → G
  | [] => 0
  | b :: bs => d • b + weighted (d + 1) bs

@[simp] theorem weighted_nil (d : Nat) : weighted d ([] : List G) = 0 := rfl

@[simp] theorem weighted_cons (d : Nat) (b : G) (bs : List G) :
    weighted d (b :: bs) = d • b + weighted (d + 1) bs := rfl

theorem weighted_succ (d : Nat) (bs : List G) : weighted (d + 1) bs = weighted d bs + bs.sum := by
  induction bs generalizing d with
  | nil => simp
  | cons b bs ih =>
    rw [weighted_cons, weighted_cons, ih, List.sum_cons, succ_nsmul]
    abel

theorem weighted_zeros (d n : Nat) : weighted d (List.replicate n (0 : G)) = 0 := by
  induction n generalizing d with
  | zero => rfl
  | succ n ih => simp [List.replicate_succ, ih]

/-- An element added to a bucket. -/
theorem weighted_modify (p : G) (d : Nat) {bs : List G} {i : Nat} (h : i < bs.length) :
    weighted d (bs.modify i (· + p)) = weighted d bs + (d + i) • p := by
  induction bs generalizing d i with
  | nil => simp at h
  | cons b bs ih =>
    cases i with
    | zero =>
      simp only [List.modify_zero_cons, weighted_cons, smul_add, Nat.add_zero]
      abel
    | succ i =>
      rw [List.modify_succ_cons, weighted_cons, weighted_cons, ih (d + 1) (by simpa using h),
        show d + 1 + i = d + (i + 1) by omega]
      abel

/-- One bucket of the pass over the buckets: the running sum and the result. -/
def running (b : G) (acc : G × G) : G × G := (acc.1 + b, acc.2 + (acc.1 + b))

/-- **The running sum** from the last bucket down weighs each bucket by its number. -/
theorem foldr_running (bs : List G) (result : G) :
    bs.foldr running (0, result) = (bs.sum, result + weighted 1 bs) := by
  induction bs with
  | nil => simp
  | cons b bs ih =>
    have hnext : weighted 2 bs = weighted 1 bs + bs.sum := weighted_succ 1 bs
    rw [List.foldr_cons, ih, running, List.sum_cons, weighted_cons, hnext, one_nsmul]
    refine Prod.ext ?_ ?_ <;> dsimp only <;> abel

/-- **A window** of digits: what the higher windows gave, shifted, and the digits of this one. -/
theorem sum_window {base : Nat} (n w : Nat) (ks : Nat → Nat) (ps : Nat → G) :
    base • ∑ i ∈ range n, (ks i / base ^ (w + 1)) • ps i + ∑ i ∈ range n, (ks i / base ^ w % base) • ps i =
      ∑ i ∈ range n, (ks i / base ^ w) • ps i := by
  rw [smul_sum, ← sum_add_distrib]
  refine sum_congr rfl fun i _ => ?_
  rw [smul_smul, ← add_smul, pow_succ, ← Nat.div_div_eq_div_mul, Nat.div_add_mod]

end LightningJolt.Buckets
