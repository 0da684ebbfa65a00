/-
Functions of a point that are affine in each coordinate, and their tables over the Boolean
values of the last coordinates: a binding of the highest variable fixes the next coordinate.
-/
import LightningJolt.DenseBinding
import LightningJolt.SparseEval

namespace LightningJolt

open Finset

variable {F : Type} [JoltField F]

/-! ## Affine functions -/

/-- A function of a point is affine in each coordinate, the others as they are. -/
def Affine (G : List F → F) : Prop :=
  ∀ (a : List F) (r : F) (z : List F), G (a ++ r :: z) = line r (G (a ++ 0 :: z)) (G (a ++ 1 :: z))

namespace Affine

theorem add {G H : List F → F} (hG : Affine G) (hH : Affine H) : Affine fun x => G x + H x := by
  intro a r z
  simp only [hG a r z, hH a r z, line]
  ring

theorem const_mul {G : List F → F} (hG : Affine G) (k : F) : Affine fun x => k * G x := by
  intro a r z
  simp only [hG a r z, line]
  ring

theorem zero : Affine fun _ : List F => (0 : F) := fun _ r _ => by simp [line]

theorem list_sum {ι : Type} {l : List ι} {G : ι → List F → F} (h : ∀ i ∈ l, Affine (G i)) :
    Affine fun x => (l.map fun i => G i x).sum := by
  induction l with
  | nil => exact zero
  | cons i l ih =>
    simp only [List.map_cons, List.sum_cons]
    exact (h i (List.mem_cons_self ..)).add (ih fun j hj => h j (List.mem_cons_of_mem _ hj))

end Affine

/-- The equality polynomial with any values of the other point. -/
theorem affine_eqMle (y : List F) : Affine fun x => eqMle x y := by
  intro a r z
  induction a generalizing y with
  | nil =>
    cases y with
    | nil => simp [eqMle, line]
    | cons b y =>
      simp only [List.nil_append, eqMle, List.zipWith_cons_cons, List.prod_cons, eqFactor, line]
      ring
  | cons c a ih =>
    cases y with
    | nil => simp [eqMle, line]
    | cons b y =>
      have hrest := ih y
      simp only [eqMle, line] at hrest
      simp only [List.cons_append, eqMle, List.zipWith_cons_cons, List.prod_cons, hrest, line]
      ring

/-- A coordinate. -/
theorem line_getD (a z : List F) (r : F) (i : Nat) :
    (a ++ r :: z).getD i 0 = line r ((a ++ 0 :: z).getD i 0) ((a ++ 1 :: z).getD i 0) := by
  rcases Nat.lt_trichotomy i a.length with h | h | h
  · rw [List.getD_append _ _ _ _ h, List.getD_append _ _ _ _ h, List.getD_append _ _ _ _ h]
    simp [line]
  · rw [List.getD_append_right _ _ _ _ h.ge, List.getD_append_right _ _ _ _ h.ge,
      List.getD_append_right _ _ _ _ h.ge, h, Nat.sub_self]
    simp [line]
  · obtain ⟨k, rfl⟩ := Nat.exists_eq_add_of_lt h
    rw [List.getD_append_right _ _ _ _ h.le, List.getD_append_right _ _ _ _ h.le,
      List.getD_append_right _ _ _ _ h.le, show a.length + k + 1 - a.length = k + 1 by omega]
    simp [line]

/-! ## Boolean coordinates -/

/-- The bits of an index as coordinates, the highest of `n` first. -/
def bitsPoint (n index : Nat) : List F := (indexBits n index).map fun bit => if bit then 1 else 0

@[simp] theorem length_bitsPoint (n index : Nat) : (bitsPoint n index : List F).length = n := by
  simp [bitsPoint, indexBits]

theorem bitsPoint_succ (n index : Nat) :
    (bitsPoint (n + 1) index : List F) = (if index.testBit n then 1 else 0) :: bitsPoint n (index % 2 ^ n) := by
  rw [bitsPoint, indexBits_succ]
  rfl

theorem bitsPoint_low {n index : Nat} (h : index < 2 ^ n) :
    (bitsPoint (n + 1) index : List F) = 0 :: bitsPoint n index := by
  rw [bitsPoint_succ, Nat.mod_eq_of_lt h, Nat.testBit_lt_two_pow h]
  rfl

theorem bitsPoint_high {n index : Nat} (h : index < 2 ^ n) :
    (bitsPoint (n + 1) (2 ^ n + index) : List F) = 1 :: bitsPoint n index := by
  rw [bitsPoint_succ, Nat.add_mod_left, Nat.mod_eq_of_lt h, Nat.testBit_two_pow_add_eq,
    Nat.testBit_lt_two_pow h]
  rfl

theorem getD_bitsPoint {n index i : Nat} (h : i < n) :
    (bitsPoint n index : List F).getD i 0 = if index.testBit (n - 1 - i) then 1 else 0 := by
  rw [List.getD_eq_getElem?_getD, bitsPoint, indexBits, List.map_map, List.getElem?_map,
    List.getElem?_range h]
  rfl

/-- An index split: its high bits and its low bits. -/
theorem bitsPoint_append (m n : Nat) {i j : Nat} (hj : j < 2 ^ n) :
    (bitsPoint (m + n) (i * 2 ^ n + j) : List F) = bitsPoint m i ++ bitsPoint n j := by
  refine List.ext_getElem (by simp) fun k h1 h2 => ?_
  rw [length_bitsPoint] at h1
  have hget (l : List F) (h : k < l.length) : l[k] = l.getD k 0 := (List.getD_eq_getElem _ _ h).symm
  have hsplit := Nat.testBit_two_pow_mul_add i hj (m + n - 1 - k)
  rw [hget, hget, getD_bitsPoint h1, Nat.mul_comm, hsplit]
  by_cases hk : k < m
  · have hhigh : ¬ m + n - 1 - k < n := by omega
    rw [List.getD_append _ _ _ _ (by rwa [length_bitsPoint]), getD_bitsPoint hk, if_neg hhigh,
      show m + n - 1 - k - n = m - 1 - k by omega]
  · have hlow : m + n - 1 - k < n := by omega
    rw [List.getD_append_right _ _ _ _ (by rw [length_bitsPoint]; omega), length_bitsPoint,
      getD_bitsPoint (by omega), if_pos hlow, show m + n - 1 - k = n - 1 - (k - m) by omega]

theorem eqMle_bitsPoint {n i j : Nat} (hi : i < 2 ^ n) (hj : j < 2 ^ n) :
    eqMle (bitsPoint n i : List F) (bitsPoint n j) = if i = j then 1 else 0 := by
  induction n generalizing i j with
  | zero =>
    have hi0 : i = 0 := by simpa using hi
    have hj0 : j = 0 := by simpa using hj
    rw [hi0, hj0]
    simp [eqMle, bitsPoint, indexBits]
  | succ n ih =>
    have hpos := Nat.two_pow_pos n
    have hmod (k : Nat) : k % 2 ^ n < 2 ^ n := Nat.mod_lt _ hpos
    have hsame : i = j ↔ i.testBit n = j.testBit n ∧ i % 2 ^ n = j % 2 ^ n := by
      refine ⟨fun h => h ▸ ⟨rfl, rfl⟩, ?_⟩
      rintro ⟨hbit, hlow⟩
      refine Nat.eq_of_testBit_eq fun k => ?_
      rcases Nat.lt_trichotomy k n with hk | rfl | hk
      · have hlowbit := congrArg (·.testBit k) hlow
        simpa [Nat.testBit_mod_two_pow, hk] using hlowbit
      · exact hbit
      · rw [Nat.testBit_lt_two_pow (hi.trans_le (Nat.pow_le_pow_right (by omega) hk)),
          Nat.testBit_lt_two_pow (hj.trans_le (Nat.pow_le_pow_right (by omega) hk))]
    rw [bitsPoint_succ, bitsPoint_succ, eqMle, List.zipWith_cons_cons, List.prod_cons, ← eqMle,
      ih (hmod i) (hmod j)]
    by_cases hlow : i % 2 ^ n = j % 2 ^ n
    · cases hbi : i.testBit n <;> cases hbj : j.testBit n <;> simp [hsame, hlow, hbi, hbj, eqFactor]
    · simp [hsame, hlow]

/-- The entry of a table of the equality polynomial by the bits of its index. -/
theorem eqAt_eq_eqMle (w : List F) {index : Nat} (h : index < 2 ^ w.length) :
    eqAt w index = eqMle w (bitsPoint w.length index) := by
  rw [← prod_bitFactor w h, eqMle, bitsPoint, List.zipWith_map_right, List.zipWith_comm]
  congr 2
  funext x b
  cases b <;> simp [bitFactor, eqFactor]

/-! ## Tables -/

/-- The values of a function with the last `n` coordinates Boolean. -/
def tableAt (G : List F → F) (x : List F) (n : Nat) : List F :=
  tableOf (2 ^ n) fun i => G (x ++ bitsPoint n i)

@[simp] theorem length_tableAt (G : List F → F) (x : List F) (n : Nat) :
    (tableAt G x n).length = 2 ^ n := length_tableOf

/-- **A binding of the highest variable** fixes the next coordinate. -/
theorem bind_tableAt {G : List F → F} (hG : Affine G) (x : List F) (n : Nat) (r : F) :
    DensePolynomial.bind .highToLow (tableAt G x (n + 1)) r = tableAt G (x ++ [r]) n := by
  rw [tableAt, pow_succ, Nat.mul_comm, DensePolynomial.bind_tableOf]
  refine tableOf_congr fun i hi => ?_
  rw [bindFn, List.append_assoc, List.singleton_append, hG x r]
  simp only [BindingOrder.pair, bitsPoint_low hi, bitsPoint_high hi]

theorem getElem?_tableAt_low {G : List F → F} {x : List F} {n i : Nat} (h : i < 2 ^ n) :
    (tableAt G x (n + 1))[i]? = .some (G (x ++ 0 :: bitsPoint n i)) := by
  rw [tableAt, getElem?_tableOf (by rw [pow_succ]; omega), bitsPoint_low h]

theorem getElem?_tableAt_high {G : List F → F} {x : List F} {n i : Nat} (h : i < 2 ^ n) :
    (tableAt G x (n + 1))[2 ^ n + i]? = .some (G (x ++ 1 :: bitsPoint n i)) := by
  rw [tableAt, getElem?_tableOf (by rw [pow_succ]; omega), bitsPoint_high h]

theorem tableAt_zero (G : List F → F) (x : List F) : tableAt G x 0 = [G x] := by
  rw [tableAt]
  simp [tableOf, bitsPoint, indexBits]

end LightningJolt
