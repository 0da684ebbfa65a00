/-
The table of the equality polynomial by index: the entry of a concatenated
point is a product, so that an index splits into the indices of its parts.
-/
import LightningJolt.EqTable

namespace LightningJolt

open Finset

/-! ## Sums over split indices -/

/-- The numbers below a product are the pairs of a quotient and a remainder. -/
theorem sum_range_mul {M : Type} [AddCommMonoid M] (a b : Nat) (f : Nat → M) :
    ∑ n ∈ range (a * b), f n = ∑ i ∈ range a, ∑ j ∈ range b, f (i * b + j) := by
  induction a with
  | zero => rw [Nat.zero_mul, sum_range_zero, sum_range_zero]
  | succ a ih => rw [Nat.succ_mul, sum_range_add, ih, sum_range_succ]

/-- A block at the start of a range. -/
theorem sum_range_block {M : Type} [AddCommMonoid M] {m n : Nat} (h : m ≤ n) (f : Nat → M) :
    ∑ i ∈ range n, (if i < m then f i else 0) = ∑ i ∈ range m, f i := by
  obtain ⟨k, rfl⟩ := Nat.exists_eq_add_of_le h
  rw [sum_range_add]
  have hhead : ∑ i ∈ range m, (if i < m then f i else 0) = ∑ i ∈ range m, f i :=
    sum_congr rfl fun i hi => if_pos (mem_range.mp hi)
  have htail : ∑ i ∈ range k, (if m + i < m then f (m + i) else 0) = 0 :=
    sum_eq_zero fun i _ => if_neg (by omega)
  rw [hhead, htail, add_zero]

theorem div_of_split {b i j : Nat} (hj : j < b) : (i * b + j) / b = i := by
  rw [Nat.add_comm, Nat.add_mul_div_right _ _ (by omega), Nat.div_eq_of_lt hj, Nat.zero_add]

theorem mod_of_split {b i j : Nat} (hj : j < b) : (i * b + j) % b = j := by
  rw [Nat.add_comm, Nat.add_mul_mod_self_right, Nat.mod_eq_of_lt hj]

theorem split_lt {a b i j : Nat} (hi : i < a) (hj : j < b) : i * b + j < a * b := by
  calc i * b + j < i * b + b := Nat.add_lt_add_left hj _
    _ = (i + 1) * b := (Nat.succ_mul i b).symm
    _ ≤ a * b := Nat.mul_le_mul_right b hi

/-! ## Entries of the table -/

variable {F : Type} [CommRing F]

theorem getD_tensor (a b : List F) (i : Nat) {j : Nat} (hj : j < b.length) :
    (tensor a b).getD (i * b.length + j) 0 = a.getD i 0 * b.getD j 0 := by
  induction a generalizing i with
  | nil => simp
  | cons x a ih =>
    rw [tensor_cons]
    cases i with
    | zero =>
      rw [Nat.zero_mul, Nat.zero_add, List.getD_append _ _ _ _ (by rwa [List.length_map])]
      simp [List.getD_eq_getElem?_getD, hj]
    | succ i =>
      have hle : (b.map (x * ·)).length ≤ (i + 1) * b.length + j := by
        rw [List.length_map, Nat.succ_mul]
        omega
      rw [List.getD_append_right _ _ _ _ hle, List.length_map, List.getD_cons_succ, ← ih i]
      congr 1
      rw [Nat.succ_mul]
      omega

/-- The entry of `eq(w, ·)` at an index, the first coordinate deciding the highest bit. -/
def eqAt (w : List F) (i : Nat) : F := (eqTable w).getD i 0

theorem eqAt_append (u v : List F) (i : Nat) {j : Nat} (hj : j < 2 ^ v.length) :
    eqAt (u ++ v) (i * 2 ^ v.length + j) = eqAt u i * eqAt v j := by
  rw [← length_eqTable] at hj
  rw [eqAt, eqTable_append, ← length_eqTable]
  exact getD_tensor _ _ i hj

theorem sum_getD (l : List F) : ∑ i ∈ range l.length, l.getD i 0 = l.sum := by
  induction l with
  | nil => rfl
  | cons x l ih =>
    rw [List.length_cons, sum_range_succ', List.sum_cons, add_comm]
    simp only [List.getD_cons_succ, List.getD_cons_zero]
    rw [ih]

theorem sum_eqAt (w : List F) : ∑ i ∈ range (2 ^ w.length), eqAt w i = 1 := by
  rw [← length_eqTable, ← sum_eqTable w]
  exact sum_getD _

/-- The first entry: the selector of zero. -/
theorem eqAt_zero (w : List F) : eqAt w 0 = (w.map fun r => 1 - r).prod := by
  induction w with
  | nil => rfl
  | cons r w ih =>
    have h := eqAt_append [r] w 0 (Nat.two_pow_pos _)
    rw [Nat.zero_mul] at h
    rw [List.map_cons, List.prod_cons, ← ih]
    refine h.trans ?_
    congr 1
    rw [eqAt, eqTable_singleton]
    rfl

end LightningJolt
