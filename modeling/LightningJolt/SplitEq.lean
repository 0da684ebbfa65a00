/-
The split equality polynomial: tables of the prefixes, or suffixes, of two parts
of a point, the factor of the coordinates bound so far, and the order of binding.
-/
import LightningJolt.EqTable
import LightningJolt.Transcript

namespace LightningJolt

variable {F C : Type} [JoltField F] [Challenge C F]

/-! ## Tables of a point -/

namespace EqPolynomial

/-- A further coordinate, which varies fastest. -/
def expandLow (evals : List F) (r : F) : List F :=
  evals.flatMap fun scalar => [scalar - scalar * r, scalar * r]

/-- A further coordinate, which varies slowest. -/
def expandHigh (evals : List F) (r : F) : List F :=
  evals.map (fun scalar => scalar - scalar * r) ++ evals.map fun scalar => scalar * r

/-- `evals_serial`. -/
def evalsSerial (r : List C) (scalingFactor : Option F) : List F :=
  (r.map Challenge.into).foldl expandLow [scalingFactor.getD 1]

/-- `evals_serial_cached`: the tables of all prefixes. -/
def evalsSerialCached (r : List C) (scalingFactor : Option F) : List (List F) :=
  (r.map Challenge.into).scanl expandLow [scalingFactor.getD 1]

/-- `evals_serial_cached_rev`: the tables of all suffixes. -/
def evalsSerialCachedRev (r : List C) (scalingFactor : Option F) : List (List F) :=
  (r.map Challenge.into).reverse.scanl expandHigh [scalingFactor.getD 1]

/-- `evals_parallel`. -/
def evalsParallel (r : List C) (scalingFactor : Option F) : List F :=
  (r.map Challenge.into).reverse.foldl expandHigh [scalingFactor.getD 1]

/-- `evals`, parallel above `PARALLEL_THRESHOLD`. -/
def evals (r : List C) : List F :=
  if r.length ≤ 16 then evalsSerial r .none else evalsParallel r .none

/-- `mle`. -/
def mle (x y : List F) : F := (List.zipWith (fun x y => x * y + (1 - x) * (1 - y)) x y).prod

theorem expandLow_eq (evals : List F) (r : F) : expandLow evals r = tensor evals (eqPair r) := by
  unfold expandLow tensor eqPair
  congr 1
  funext x
  rw [List.map_cons, List.map_singleton, mul_sub, mul_one]

theorem expandHigh_eq (evals : List F) (r : F) : expandHigh evals r = tensor (eqPair r) evals := by
  rw [expandHigh, eqPair, tensor_cons, tensor_cons, tensor_nil_left, List.append_nil]
  congr 1
  · refine List.map_congr_left fun x _ => ?_
    ring
  · refine List.map_congr_left fun x _ => ?_
    ring

theorem foldl_expandLow (evals r : List F) : r.foldl expandLow evals = tensor evals (eqTable r) := by
  induction r generalizing evals with
  | nil => rw [List.foldl_nil, eqTable, tensor_one_right]
  | cons x r ih => rw [List.foldl_cons, ih, expandLow_eq, tensor_assoc, eqTable]

theorem foldl_expandHigh (evals r : List F) :
    r.reverse.foldl expandHigh evals = tensor (eqTable r) evals := by
  induction r with
  | nil => rw [List.reverse_nil, List.foldl_nil, eqTable, tensor_one_left]
  | cons x r ih =>
    rw [List.reverse_cons, List.foldl_append, ih, List.foldl_cons, List.foldl_nil, expandHigh_eq,
      eqTable, tensor_assoc]

theorem tensor_singleton_right (a : List F) (k : F) : tensor a [k] = a.map (k * ·) := by
  induction a with
  | nil => rfl
  | cons x a ih =>
    rw [tensor_cons, ih]
    simp [mul_comm]

theorem evalsSerial_none (r : List C) :
    evalsSerial r (.none : Option F) = eqTable (r.map Challenge.into) := by
  rw [evalsSerial, foldl_expandLow, Option.getD_none, tensor_one_left]

theorem evalsParallel_eq (r : List C) (k : Option F) :
    evalsParallel r k = (eqTable (r.map Challenge.into)).map (k.getD 1 * ·) := by
  rw [evalsParallel, foldl_expandHigh, tensor_singleton_right]

theorem evals_eq (r : List C) : (evals r : List F) = eqTable (r.map Challenge.into) := by
  unfold evals
  split_ifs
  · exact evalsSerial_none r
  · rw [evalsParallel_eq, Option.getD_none]
    simp

end EqPolynomial

/-! ## The split polynomial -/

inductive BindingOrder where
  | lowToHigh | highToLow
deriving DecidableEq

/-- `GruenSplitEqPolynomial`. -/
structure GruenSplitEqPolynomial (F C : Type) where
  currentIndex : Nat
  currentScalar : F
  w : List C
  eInVec : List (List F)
  eOutVec : List (List F)
  bindingOrder : BindingOrder
deriving DecidableEq

/-- `DensePolynomial::new`, by its evaluations. -/
def DensePolynomial.new (evals : List F) : Option (List F) :=
  if 2 ^ evals.length.log2 = evals.length then .some evals else .none

namespace GruenSplitEqPolynomial

/-- `new_with_scaling`. -/
def newWithScaling (w : List C) (bindingOrder : BindingOrder) (scalingFactor : Option F) :
    Option (GruenSplitEqPolynomial F C) :=
  if w = [] then .none
  else
    let m := w.length / 2
    match bindingOrder with
    | .lowToHigh =>
      let wprime := w.dropLast
      .some ⟨w.length, scalingFactor.getD 1, w, EqPolynomial.evalsSerialCached (wprime.drop m) .none,
        EqPolynomial.evalsSerialCached (wprime.take m) .none, bindingOrder⟩
    | .highToLow =>
      let wprime := w.tail
      .some ⟨0, scalingFactor.getD 1, w, EqPolynomial.evalsSerialCachedRev (wprime.take m) .none,
        EqPolynomial.evalsSerialCachedRev (wprime.drop m) .none, bindingOrder⟩

/-- `E_in_current`. -/
def eInCurrent (s : GruenSplitEqPolynomial F C) : Option (List F) := s.eInVec.getLast?

/-- `E_out_current`. -/
def eOutCurrent (s : GruenSplitEqPolynomial F C) : Option (List F) := s.eOutVec.getLast?

/-- `get_current_w`, the coordinate to be bound next. -/
def getCurrentW (s : GruenSplitEqPolynomial F C) : Option C :=
  match s.bindingOrder with
  | .lowToHigh => if s.currentIndex = 0 then .none else s.w[s.currentIndex - 1]?
  | .highToLow => s.w[s.currentIndex]?

/-- `E_out_in_for_window`, which is not implemented from high to low. -/
def eOutInForWindow (s : GruenSplitEqPolynomial F C) (windowSize : Nat) :
    Option (List F × List F) :=
  match s.bindingOrder with
  | .lowToHigh => do
    let windowSize := min windowSize s.currentIndex
    let headLen := s.currentIndex - windowSize
    let headOutBits := min headLen (s.w.length / 2)
    let headInBits := headLen - headOutBits
    .some (← s.eOutVec[headOutBits]?, ← s.eInVec[headInBits]?)
  | .highToLow => .none

/-- `E_active_for_window`, which is not implemented from high to low. -/
def eActiveForWindow (s : GruenSplitEqPolynomial F C) (windowSize : Nat) : Option (List F) :=
  if windowSize ≤ 1 then .some [1]
  else
    match s.bindingOrder with
    | .lowToHigh =>
      if windowSize > s.currentIndex then .some [1]
      else
        let wWindow := (s.w.take s.currentIndex).drop (s.currentIndex - windowSize)
        .some (EqPolynomial.evals (wWindow.take (windowSize - 1)))
    | .highToLow => .none

/-- The pop of a round: from one stack, or the other, and never its last table. -/
def popTables (s : GruenSplitEqPolynomial F C) (popIn popOut : Bool) : GruenSplitEqPolynomial F C :=
  if popIn ∧ s.eInVec.length > 1 then { s with eInVec := s.eInVec.dropLast }
  else if popOut ∧ s.eOutVec.length > 1 then { s with eOutVec := s.eOutVec.dropLast }
  else s

/-- `bind`. -/
def bind (s : GruenSplitEqPolynomial F C) (r : C) : Option (GruenSplitEqPolynomial F C) := do
  let w : F := Challenge.into (← s.getCurrentW)
  let prodWR := w * Challenge.into r
  let currentScalar := s.currentScalar * (1 - w - Challenge.into r + prodWR + prodWR)
  match s.bindingOrder with
  | .lowToHigh =>
    let currentIndex := s.currentIndex - 1
    .some (popTables { s with currentScalar, currentIndex }
      (decide (s.w.length / 2 < currentIndex)) (decide (0 < currentIndex)))
  | .highToLow =>
    let currentIndex := s.currentIndex + 1
    .some (popTables { s with currentScalar, currentIndex }
      (decide (currentIndex ≤ s.w.length / 2)) (decide (currentIndex ≤ s.w.length)))

/-- A run of rounds. -/
def bindAll (s : GruenSplitEqPolynomial F C) (rs : List C) : Option (GruenSplitEqPolynomial F C) :=
  rs.foldlM bind s

/-- `merge`. -/
def merge (s : GruenSplitEqPolynomial F C) : Option (List F) :=
  match s.bindingOrder with
  | .lowToHigh =>
    if s.currentIndex ≤ s.w.length then
      DensePolynomial.new (EqPolynomial.evalsParallel (s.w.take s.currentIndex)
        (.some s.currentScalar))
    else .none
  | .highToLow =>
    if s.currentIndex ≤ s.w.length then
      DensePolynomial.new (EqPolynomial.evalsParallel (s.w.drop s.currentIndex)
        (.some s.currentScalar))
    else .none

end GruenSplitEqPolynomial

end LightningJolt
