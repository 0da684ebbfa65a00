/-
The equality polynomial of a point and its table over the Boolean cube: tables
of the parts of a point multiply, entry by entry, to the table of the point.
-/
import Mathlib

namespace LightningJolt

variable {F : Type} [CommRing F]

/-! ## Products of tables -/

/-- The products of the entries of two tables, the second varying faster. -/
def tensor (a b : List F) : List F := a.flatMap fun x => b.map (x * ·)

@[simp] theorem tensor_nil_left (b : List F) : tensor [] b = [] := rfl

@[simp] theorem tensor_cons (x : F) (a b : List F) : tensor (x :: a) b = b.map (x * ·) ++ tensor a b := rfl

theorem tensor_append (a b c : List F) : tensor (a ++ b) c = tensor a c ++ tensor b c :=
  List.flatMap_append

@[simp] theorem tensor_one_left (b : List F) : tensor [1] b = b := by simp

@[simp] theorem tensor_one_right (a : List F) : tensor a [1] = a := by
  induction a with
  | nil => rfl
  | cons x a ih => simp [ih]

theorem map_mul_tensor (k : F) (a b : List F) :
    (tensor a b).map (k * ·) = tensor (a.map (k * ·)) b := by
  induction a with
  | nil => rfl
  | cons x a ih =>
    rw [tensor_cons, List.map_append, ih, List.map_map, List.map_cons, tensor_cons]
    congr 2
    funext y
    exact (mul_assoc k x y).symm

theorem tensor_assoc (a b c : List F) : tensor (tensor a b) c = tensor a (tensor b c) := by
  induction a with
  | nil => rfl
  | cons x a ih => rw [tensor_cons, tensor_cons, tensor_append, ih, map_mul_tensor]

@[simp] theorem length_tensor (a b : List F) : (tensor a b).length = a.length * b.length := by
  induction a with
  | nil => simp
  | cons x a ih =>
    rw [tensor_cons, List.length_append, ih, List.length_map, List.length_cons]
    ring

/-! ## The equality polynomial -/

/-- The factor of one coordinate. -/
def eqFactor (w x : F) : F := (1 - w) * (1 - x) + w * x

/-- `eq(w, x)`, the product of the coordinates' factors. -/
def eqMle (w x : List F) : F := (List.zipWith eqFactor w x).prod

/-- The factors of one coordinate at zero and at one. -/
def eqPair (w : F) : List F := [1 - w, w]

theorem eqMle_append {w1 w2 x1 x2 : List F} (h : w1.length = x1.length) :
    eqMle (w1 ++ w2) (x1 ++ x2) = eqMle w1 x1 * eqMle w2 x2 := by
  rw [eqMle, List.zipWith_append h, List.prod_append]
  rfl

/-- The points of the Boolean cube, the last coordinate varying fastest. -/
def cube : Nat → List (List F)
  | 0 => [[]]
  | n + 1 => (cube n).map (0 :: ·) ++ (cube n).map (1 :: ·)

theorem length_of_mem_cube {n : Nat} {x : List F} (h : x ∈ cube n) : x.length = n := by
  induction n generalizing x with
  | zero =>
    rw [cube, List.mem_singleton] at h
    rw [h]
    rfl
  | succ n ih =>
    rw [cube, List.mem_append, List.mem_map, List.mem_map] at h
    rcases h with ⟨y, hy, rfl⟩ | ⟨y, hy, rfl⟩
    · rw [List.length_cons, ih hy]
    · rw [List.length_cons, ih hy]

/-- The table of `eq(w, ·)`. -/
def eqTable : List F → List F
  | [] => [1]
  | w :: ws => tensor (eqPair w) (eqTable ws)

theorem eqTable_nil : eqTable ([] : List F) = [1] := rfl

theorem eqTable_cons (w : F) (ws : List F) : eqTable (w :: ws) = tensor (eqPair w) (eqTable ws) := rfl

theorem eqTable_append (u v : List F) : eqTable (u ++ v) = tensor (eqTable u) (eqTable v) := by
  induction u with
  | nil => rw [List.nil_append, eqTable_nil, tensor_one_left]
  | cons w u ih => rw [List.cons_append, eqTable_cons, ih, eqTable_cons, tensor_assoc]

theorem eqTable_singleton (w : F) : eqTable [w] = eqPair w := by
  rw [eqTable_cons, eqTable_nil, tensor_one_right]

/-- The table holds the values over the cube. -/
theorem eqTable_eq (w : List F) : eqTable w = (cube w.length).map (eqMle w) := by
  induction w with
  | nil => rfl
  | cons w ws ih =>
    rw [eqTable_cons, eqPair, tensor_cons, tensor_cons, tensor_nil_left, List.append_nil, ih,
      List.length_cons, cube, List.map_append]
    simp only [List.map_map]
    congr 1
    · refine List.map_congr_left fun x _ => ?_
      simp [eqMle, eqFactor]
    · refine List.map_congr_left fun x _ => ?_
      simp [eqMle, eqFactor]

theorem sum_eqTable (w : List F) : (eqTable w).sum = 1 := by
  induction w with
  | nil => simp [eqTable_nil]
  | cons w ws ih =>
    rw [eqTable_cons, eqPair, tensor_cons, tensor_cons, tensor_nil_left, List.append_nil, List.sum_append,
      List.sum_map_mul_left, List.sum_map_mul_left, List.map_id', ih]
    ring

theorem length_eqTable (w : List F) : (eqTable w).length = 2 ^ w.length := by
  induction w with
  | nil => rfl
  | cons x w ih =>
    rw [eqTable_cons, length_tensor, ih, List.length_cons, pow_succ, mul_comm]
    rfl

/-! ## Binding coordinates -/

/-- Values of the last coordinates taken, those of the others over the cube. -/
theorem map_eqMle_append (w1 w2 x2 : List F) :
    (cube w1.length).map (fun x => eqMle (w1 ++ w2) (x ++ x2)) =
      (eqTable w1).map (eqMle w2 x2 * ·) := by
  rw [eqTable_eq, List.map_map]
  refine List.map_congr_left fun x hx => ?_
  rw [eqMle_append (length_of_mem_cube hx).symm, mul_comm]
  rfl

/-- Values of the first coordinates taken. -/
theorem map_eqMle_prepend {w1 x1 : List F} (w2 : List F) (h : w1.length = x1.length) :
    (cube w2.length).map (fun x => eqMle (w1 ++ w2) (x1 ++ x)) =
      (eqTable w2).map (eqMle w1 x1 * ·) := by
  rw [eqTable_eq, List.map_map]
  refine List.map_congr_left fun x _ => ?_
  rw [eqMle_append h]
  rfl

end LightningJolt
