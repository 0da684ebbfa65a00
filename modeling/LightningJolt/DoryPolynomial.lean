/-
The polynomials the Dory scheme commits to: their values at a point by the Lagrange basis, the
matrix of their coefficients, and the two tiers of a commitment.
-/
import LightningJolt.DorySetup
import LightningJolt.EqIndex

namespace LightningJolt.Dory

open Finset

variable {F G1 G2 GT : Type} [Field F] [AddCommGroup G1] [Module F G1] [AddCommGroup G2] [Module F G2]
  [AddCommGroup GT] [Module F GT]

/-! ## Modes -/

/-- `Transparent` or `ZK`. -/
inductive Mode
  | transparent
  | zk
deriving DecidableEq

namespace Mode

/-- `BLINDING`. -/
def blinding : Mode → Bool
  | transparent => false
  | zk => true

/-- `sample`, with what the generator of randomness gives. -/
def sample : Mode → F → F
  | transparent, _ => 0
  | zk, random => random

/-- `mask`. -/
def mask {G : Type} [AddCommGroup G] [Module F G] : Mode → G → G → F → G
  | transparent, value, _, _ => value
  | zk, value, base, blind => value + blind • base

@[simp] theorem mask_sample {G : Type} [AddCommGroup G] [Module F G] (mode : Mode) (value base : G) (random : F) :
    mode.mask value base (mode.sample random) = value + mode.sample random • base := by
  cases mode <;> simp [mask, sample]

end Mode

/-! ## The Lagrange basis -/

/-- One variable of `multilinear_lagrange_basis` over the entries written so far. -/
def splitLevel (output : List F) (mid : Nat) (p : F) : List F :=
  if output.length ≤ mid then output.map (· * (1 - p))
  else
    let left := output.take mid
    let right := output.drop mid
    let k := min left.length right.length
    left.map (· * (1 - p)) ++ ((left.take k).map (· * p) ++ right.drop k)

/-- `multilinear_lagrange_basis`, into the entries of `output`. -/
def multilinearLagrangeBasis (output point : List F) : Outcome (List F) := do
  .assert (output.length ≤ 1 <<< point.length)
  match point with
  | [] => return output.map fun _ => 1
  | p0 :: rest =>
    if output = [] then return []
    let first := output.set 0 (1 - p0)
    let first := if 1 < output.length then first.set 1 p0 else first
    return rest.zipIdx.foldl (fun out x => splitLevel out (1 <<< (x.2 + 1)) x.1) first

/-- `compute_left_right_vectors`. -/
def computeLeftRightVectors (point : List F) (nu sigma : Nat) : Outcome (List F × List F) := do
  let leftVec := List.replicate (1 <<< nu) (0 : F)
  let rightVec := List.replicate (1 <<< sigma) (0 : F)
  let n := point.length
  if n = 0 then return (leftVec.set 0 1, rightVec.set 0 1)
  else if n ≤ sigma then
    let written ← multilinearLagrangeBasis (rightVec.take (1 <<< n)) point
    return (leftVec.set 0 1, written ++ rightVec.drop (1 <<< n))
  else if n ≤ nu + sigma then
    let right ← multilinearLagrangeBasis rightVec (point.take sigma)
    let written ← multilinearLagrangeBasis (leftVec.take (1 <<< (n - sigma))) (point.drop sigma)
    return (written ++ leftVec.drop (1 <<< (n - sigma)), right)
  else
    let right ← multilinearLagrangeBasis (rightVec.take (1 <<< sigma)) (point.take sigma)
    let left ← multilinearLagrangeBasis leftVec (point.drop sigma)
    return (left, right)

/-- The basis of a point, one variable after the other. -/
def tensorBasis (point : List F) : List F :=
  point.foldl (fun basis p => basis.map (· * (1 - p)) ++ basis.map (· * p)) [1]

@[simp] theorem tensorBasis_nil : tensorBasis ([] : List F) = [1] := rfl

theorem tensorBasis_snoc (point : List F) (p : F) :
    tensorBasis (point ++ [p]) = (tensorBasis point).map (· * (1 - p)) ++ (tensorBasis point).map (· * p) := by
  rw [tensorBasis, List.foldl_append]
  rfl

@[simp] theorem length_tensorBasis (point : List F) : (tensorBasis point).length = 2 ^ point.length := by
  induction point using List.reverseRecOn with
  | nil => rfl
  | append_singleton point p ih =>
    rw [tensorBasis_snoc, List.length_append, List.length_map, List.length_map, ih, List.length_append,
      List.length_singleton, pow_succ]
    omega

/-- The basis of a point in two parts, the second in the high positions. -/
theorem getD_tensorBasis_append (low high : List F) {i j : Nat} (hj : j < 2 ^ low.length)
    (hi : i < 2 ^ high.length) :
    (tensorBasis (low ++ high)).getD (i * 2 ^ low.length + j) 0 =
      (tensorBasis low).getD j 0 * (tensorBasis high).getD i 0 := by
  induction high using List.reverseRecOn generalizing i with
  | nil =>
    have hzero : i = 0 := by simpa using hi
    simp [hzero]
  | append_singleton high p ih =>
    have hlen : (tensorBasis (low ++ high)).length = 2 ^ high.length * 2 ^ low.length := by
      rw [length_tensorBasis, List.length_append, pow_add, Nat.mul_comm]
    have hget (k : F) (xs : List F) (n : Nat) : (xs.map (· * k)).getD n 0 = xs.getD n 0 * k := by
      simp only [List.getD_eq_getElem?_getD, List.getElem?_map]
      cases xs[n]? <;> simp
    rw [← List.append_assoc, tensorBasis_snoc, tensorBasis_snoc]
    by_cases hlow : i < 2 ^ high.length
    · have hpos : i * 2 ^ low.length + j < (tensorBasis (low ++ high)).length := by
        rw [hlen]
        nlinarith
      rw [List.getD_append _ _ _ _ (by simpa using hpos), List.getD_append _ _ _ _ (by simpa using hlow), hget, hget,
        ih hlow, mul_assoc]
    · have hi' : i - 2 ^ high.length < 2 ^ high.length := by
        rw [List.length_append, List.length_singleton, pow_succ] at hi
        omega
      have hsub : i * 2 ^ low.length + j - ((tensorBasis (low ++ high)).map (· * (1 - p))).length =
          (i - 2 ^ high.length) * 2 ^ low.length + j := by
        have hmul : 2 ^ high.length * 2 ^ low.length ≤ i * 2 ^ low.length :=
          Nat.mul_le_mul_right _ (by omega)
        rw [List.length_map, hlen, Nat.sub_mul]
        omega
      rw [List.getD_append_right _ _ _ _ (by
          rw [List.length_map, hlen]
          have hmul : 2 ^ high.length * 2 ^ low.length ≤ i * 2 ^ low.length :=
            Nat.mul_le_mul_right _ (by omega)
          omega),
        List.getD_append_right _ _ _ _ (by simpa using hlow), hsub, hget, hget, ih hi', List.length_map,
        length_tensorBasis, mul_assoc]

/-- A level over a table whose first entries hold the basis so far. -/
theorem splitLevel_eq {out : List F} {done : List F} {n : Nat} (p : F) (hout : out.length = 2 ^ n)
    (hdone : done.length < n) (h : out.take (2 ^ done.length) = tensorBasis done) :
    (splitLevel out (2 ^ done.length) p).take (2 ^ (done.length + 1)) = tensorBasis (done ++ [p]) ∧
      (splitLevel out (2 ^ done.length) p).length = 2 ^ n := by
  have hpow : 2 ^ (done.length + 1) ≤ 2 ^ n := Nat.pow_le_pow_right (by omega) hdone
  have hdouble : 2 ^ (done.length + 1) = 2 ^ done.length + 2 ^ done.length := by rw [pow_succ]; omega
  have hmid : ¬ out.length ≤ 2 ^ done.length := by
    have hpos := Nat.two_pow_pos done.length
    omega
  have hk : min (tensorBasis done).length (out.drop (2 ^ done.length)).length = 2 ^ done.length := by
    rw [length_tensorBasis, List.length_drop]
    omega
  rw [splitLevel, if_neg hmid]
  simp only [h, hk]
  rw [List.take_of_length_le (length_tensorBasis done).le, ← List.append_assoc, ← tensorBasis_snoc]
  constructor
  · rw [List.take_left' (by simp)]
  · simp only [List.length_append, length_tensorBasis, List.length_singleton, List.length_drop]
    omega

theorem foldl_splitLevel {out done rest : List F} {n : Nat} (hout : out.length = 2 ^ n)
    (hlen : done.length + rest.length = n) (h : out.take (2 ^ done.length) = tensorBasis done) :
    (rest.zipIdx done.length).foldl (fun out x => splitLevel out (1 <<< x.2) x.1) out = tensorBasis (done ++ rest) := by
  induction rest generalizing out done with
  | nil =>
    rw [List.length_nil, Nat.add_zero] at hlen
    rw [hlen, List.take_of_length_le hout.le] at h
    simp [h]
  | cons p rest ih =>
    obtain ⟨htake, hlength⟩ := splitLevel_eq p hout (by simp at hlen; omega) h
    have hdone : (done ++ [p]).length + rest.length = n := by simp at hlen ⊢; omega
    have hrest := ih hlength hdone (by simpa using htake)
    rw [List.zipIdx_cons, List.foldl_cons, Nat.one_shiftLeft]
    simpa using hrest

/-- **The basis written into a table of its size**, whatever the table held. -/
theorem multilinearLagrangeBasis_eq {output point : List F} (h : output.length = 2 ^ point.length) :
    multilinearLagrangeBasis output point = .ok (tensorBasis point) := by
  have hassert : output.length ≤ 1 <<< point.length := by rw [Nat.one_shiftLeft, h]
  cases point with
  | nil =>
    obtain ⟨a, rfl⟩ := List.length_eq_one_iff.mp (by simpa using h)
    simp [multilinearLagrangeBasis]
  | cons p0 rest =>
    have hlen : 1 < output.length := by
      rw [h, List.length_cons]
      exact Nat.one_lt_two_pow (by omega)
    obtain ⟨a, b, tail, rfl⟩ : ∃ a b tail, output = a :: b :: tail := by
      match output, hlen with
      | a :: b :: tail, _ => exact ⟨a, b, tail, rfl⟩
    have hlevel : ((1 - p0) :: p0 :: tail).length = 2 ^ (rest.length + 1) := by simpa using h
    have hdone : [p0].length + rest.length = rest.length + 1 := by simp; omega
    have hfold := foldl_splitLevel hlevel hdone (by simp [tensorBasis])
    have hshift (k : Nat) (out : List F) : (rest.zipIdx (k + 1)).foldl (fun out x => splitLevel out (1 <<< x.2) x.1) out =
        (rest.zipIdx k).foldl (fun out x => splitLevel out (1 <<< (x.2 + 1)) x.1) out := by
      rw [List.zipIdx_succ, List.foldl_map]
    simp only [multilinearLagrangeBasis, Outcome.assert_true hassert, Outcome.ok_bind, if_pos hlen, reduceCtorEq,
      if_false, List.set_cons_zero, List.set_cons_succ, Outcome.pure_eq]
    rw [← hshift]
    exact congrArg _ hfold

/-- **The evaluation vectors of a point** of as many coordinates as rows and columns need. -/
theorem computeLeftRightVectors_eq {point : List F} {nu sigma : Nat} (h : point.length = nu + sigma) :
    computeLeftRightVectors point nu sigma =
      .ok (tensorBasis (point.drop sigma), tensorBasis (point.take sigma)) := by
  have hright : (point.take sigma).length = sigma := by simp [h]
  have hleft : (point.drop sigma).length = nu := by simp [h]
  rw [computeLeftRightVectors]
  simp only [Nat.one_shiftLeft]
  by_cases hzero : point.length = 0
  · obtain rfl := List.length_eq_zero_iff.mp hzero
    obtain ⟨rfl, rfl⟩ : nu = 0 ∧ sigma = 0 := by simp at h; omega
    rfl
  by_cases hcols : point.length ≤ sigma
  · obtain rfl : nu = 0 := by omega
    have hsigma : point.length = sigma := by omega
    rw [if_neg hzero, if_pos hcols, hsigma, multilinearLagrangeBasis_eq (by simp [hsigma])]
    simp [← hsigma]
  · rw [if_neg hzero, if_neg hcols, if_pos h.le, multilinearLagrangeBasis_eq (by simp [hright]),
      show point.length - sigma = nu by omega, Outcome.ok_bind, multilinearLagrangeBasis_eq (by simp [h])]
    simp

theorem getD_map_range {α : Type} {f : Nat → α} {n i : Nat} {d : α} (h : i < n) :
    ((List.range n).map f).getD i d = f i := by
  simp [List.getD_eq_getElem?_getD, List.getElem?_range h]

/-! ## Polynomials -/

/-- `ArkworksPolynomial`: as many coefficients as the variables need, which `new` asserts. -/
structure ArkworksPolynomial (F : Type) where
  coefficients : List F
  numVars : Nat
  length_eq : coefficients.length = 2 ^ numVars

namespace ArkworksPolynomial

/-- `new`. -/
def new (coefficients : List F) : Outcome (ArkworksPolynomial F) :=
  if h : coefficients.length = 2 ^ coefficients.length.log2 then
    .ok { coefficients, numVars := coefficients.length.log2, length_eq := h }
  else .panic

/-- `evaluate`. -/
def evaluate (poly : ArkworksPolynomial F) (point : List F) : Outcome F := do
  .assert (point.length = poly.numVars)
  let basis ← multilinearLagrangeBasis (List.replicate (1 <<< poly.numVars) 0) point
  return (poly.coefficients.zip basis).foldl (fun result x => result + x.1 * x.2) 0

/-- `vector_matrix_product`. -/
def vectorMatrixProduct (poly : ArkworksPolynomial F) (leftVec : List F) (nu sigma : Nat) : List F :=
  let numCols := 1 <<< sigma
  let numRows := 1 <<< nu
  (List.range numCols).map fun j =>
    (leftVec.zipIdx.take numRows).foldl
      (fun sum x => match poly.coefficients[x.2 * numCols + j]? with
        | .some coefficient => sum + x.1 * coefficient
        | .none => sum) 0

/-- `commit`: the commitment, the row commitments and the blind, with what `sample` gives. -/
def commit (mode : Mode) (random : F) (pair : G1 →ₗ[F] G2 →ₗ[F] GT) (poly : ArkworksPolynomial F) (nu sigma : Nat)
    (setup : ProverSetup G1 G2 GT) : Outcome (GT × List G1 × F) := do
  let expectedLen := 1 <<< (nu + sigma)
  .check (poly.coefficients.length = expectedLen) (.invalidSize expectedLen poly.coefficients.length)
  let numRows := 1 <<< nu
  let numCols := 1 <<< sigma
  let g1 ← sliceTo setup.g1Vec numCols
  let rowCommitments ← (List.range numRows).mapM fun i => do
    DoryRoutines.msm g1 (← slice poly.coefficients (i * numCols) ((i + 1) * numCols))
  let tier2 ← multiPair pair rowCommitments (← sliceTo setup.g2Vec numRows)
  let blind : F := mode.sample random
  return (mode.mask tier2 setup.ht blind, rowCommitments, blind)

/-- A row of the matrix of coefficients. -/
def row (poly : ArkworksPolynomial F) (sigma i : Nat) : List F :=
  (poly.coefficients.take ((i + 1) * 2 ^ sigma)).drop (i * 2 ^ sigma)

omit [Field F] in
theorem row_length {poly : ArkworksPolynomial F} {nu sigma i : Nat} (h : poly.numVars = nu + sigma) (hi : i < 2 ^ nu) :
    (poly.row sigma i).length = 2 ^ sigma := by
  have hle : (i + 1) * 2 ^ sigma ≤ 2 ^ nu * 2 ^ sigma := Nat.mul_le_mul_right _ hi
  have hlen := poly.length_eq
  rw [h, pow_add] at hlen
  rw [row, List.length_drop, List.length_take, Nat.min_eq_left (by omega), ← Nat.sub_mul, Nat.add_sub_cancel_left,
    Nat.one_mul]

theorem getD_row {poly : ArkworksPolynomial F} {sigma i j : Nat} (hj : j < 2 ^ sigma) :
    (poly.row sigma i).getD j 0 = poly.coefficients.getD (i * 2 ^ sigma + j) 0 := by
  have hlt : i * 2 ^ sigma + j < (i + 1) * 2 ^ sigma := by rw [Nat.succ_mul]; omega
  simp only [row, List.getD_eq_getElem?_getD, List.getElem?_drop, List.getElem?_take, if_pos hlt]

/-- The columns of the matrix against a vector of as many entries as rows. -/
theorem vectorMatrixProduct_eq {poly : ArkworksPolynomial F} {leftVec : List F} {nu : Nat}
    (h : leftVec.length = 2 ^ nu) (sigma : Nat) :
    poly.vectorMatrixProduct leftVec nu sigma = (List.range (2 ^ sigma)).map fun j =>
      ∑ i ∈ range (2 ^ nu), leftVec.getD i 0 * poly.coefficients.getD (i * 2 ^ sigma + j) 0 := by
  have hfold (l : List F) (k : Nat) (j : Nat) (start : F) :
      (l.zipIdx k).foldl (fun sum x => match poly.coefficients[x.2 * 2 ^ sigma + j]? with
        | .some coefficient => sum + x.1 * coefficient
        | .none => sum) start =
        start + ∑ i ∈ range l.length, l.getD i 0 * poly.coefficients.getD ((k + i) * 2 ^ sigma + j) 0 := by
    induction l generalizing k start with
    | nil => simp
    | cons a l ih =>
      rw [List.zipIdx_cons, List.foldl_cons, ih, List.length_cons, sum_range_succ']
      simp only [Nat.add_zero, List.getD_eq_getElem?_getD, show ∀ i, k + 1 + i = k + (i + 1) from fun i => by omega]
      cases poly.coefficients[k * 2 ^ sigma + j]? with
      | none => simp
      | some coefficient =>
        simp
        ring
  rw [vectorMatrixProduct]
  simp only [Nat.one_shiftLeft]
  refine List.map_congr_left fun j _ => ?_
  rw [List.take_of_length_le (by simp [h]), hfold, h, zero_add]
  simp

/-- The value of a polynomial: its coefficients against the basis of the point. -/
theorem evaluate_basis {poly : ArkworksPolynomial F} {point : List F} (h : point.length = poly.numVars) :
    poly.evaluate point = .ok (msm (tensorBasis point) poly.coefficients) := by
  have hsize : (List.replicate (1 <<< poly.numVars) (0 : F)).length = 2 ^ point.length := by
    simp [h, Nat.one_shiftLeft]
  have hbasis := multilinearLagrangeBasis_eq hsize
  have hfold (a b : List F) (start : F) :
      (a.zip b).foldl (fun result x => result + x.1 * x.2) start = start + msm b a := by
    induction a generalizing b start with
    | nil => simp
    | cons x a ih =>
      cases b with
      | nil => simp
      | cons y b => simp [ih, add_assoc]
  rw [evaluate, Outcome.assert_true h, Outcome.ok_bind, hbasis, Outcome.ok_bind, Outcome.pure_eq, hfold, zero_add]

/-- **The value of a polynomial** as its rows against the two vectors of the point. -/
theorem evaluate_eq {poly : ArkworksPolynomial F} {point : List F} {nu sigma : Nat} (h : poly.numVars = nu + sigma)
    (hpoint : point.length = nu + sigma) :
    poly.evaluate point = .ok (msm (poly.vectorMatrixProduct (tensorBasis (point.drop sigma)) nu sigma)
      (tensorBasis (point.take sigma))) := by
  have hlow : (point.take sigma).length = sigma := by simp [hpoint]
  have hhigh : (point.drop sigma).length = nu := by simp [hpoint]
  rw [evaluate_basis (by rw [h, hpoint])]
  congr 1
  have hentry (i : Nat) (hi : i < 2 ^ nu) (j : Nat) (hj : j < 2 ^ sigma) :
      (tensorBasis point).getD (i * 2 ^ sigma + j) 0 =
        (tensorBasis (point.take sigma)).getD j 0 * (tensorBasis (point.drop sigma)).getD i 0 := by
    have happend := getD_tensorBasis_append (point.take sigma) (point.drop sigma) (i := i) (j := j)
      (by rwa [hlow]) (by rwa [hhigh])
    rwa [List.take_append_drop, hlow] at happend
  rw [msm_eq_sum (n := 2 ^ nu * 2 ^ sigma) (by rw [length_tensorBasis, hpoint, pow_add]),
    msm_eq_sum (n := 2 ^ sigma) (by simp [vectorMatrixProduct, Nat.one_shiftLeft]),
    sum_range_mul, sum_comm]
  refine sum_congr rfl fun j hj => ?_
  have hj := mem_range.mp hj
  rw [vectorMatrixProduct_eq (by simp [hhigh]), getD_map_range hj, smul_eq_mul, mul_sum]
  refine sum_congr rfl fun i hi => ?_
  rw [hentry i (mem_range.mp hi) j hj, smul_eq_mul]
  ring

/-- The commitments to the rows. -/
def rows (poly : ArkworksPolynomial F) (gens : List G1) (nu sigma : Nat) : List G1 :=
  (List.range (2 ^ nu)).map fun i => msm (gens.take (2 ^ sigma)) (poly.row sigma i)

@[simp] theorem length_rows (poly : ArkworksPolynomial F) (gens : List G1) (nu sigma : Nat) :
    (poly.rows gens nu sigma).length = 2 ^ nu := by simp [rows]

theorem commit_eq {pair : G1 →ₗ[F] G2 →ₗ[F] GT} {poly : ArkworksPolynomial F} {setup : ProverSetup G1 G2 GT}
    {m nu sigma : Nat} (hv : setup.Valid pair m) (h : poly.numVars = nu + sigma) (hnu : nu ≤ m) (hsigma : sigma ≤ m)
    (mode : Mode) (random : F) :
    poly.commit mode random pair nu sigma setup =
      .ok (dot pair (poly.rows setup.g1Vec nu sigma) (setup.g2Vec.take (2 ^ nu)) + mode.sample random • setup.ht,
        poly.rows setup.g1Vec nu sigma, mode.sample random) := by
  have hg1 := (hv.pow_le hsigma).1
  have hg2 := (hv.pow_le hnu).2
  have hlen := poly.length_eq
  rw [h, pow_add] at hlen
  have hrows := Outcome.mapM_ok (l := List.range (2 ^ nu))
    (f := fun i => do
      DoryRoutines.msm (setup.g1Vec.take (2 ^ sigma))
        (← slice poly.coefficients (i * 2 ^ sigma) ((i + 1) * 2 ^ sigma)))
    (g := fun i => msm (setup.g1Vec.take (2 ^ sigma)) (poly.row sigma i)) fun i hi => by
    have hi := List.mem_range.mp hi
    have hle : (i + 1) * 2 ^ sigma ≤ 2 ^ nu * 2 ^ sigma := Nat.mul_le_mul_right _ hi
    rw [slice_ok (Nat.mul_le_mul_right _ (by omega)) (by omega), Outcome.ok_bind]
    exact DoryRoutines.msm_ok (by rw [← row, row_length h hi, List.length_take, Nat.min_eq_left hg1])
  have hpair : (poly.rows setup.g1Vec nu sigma).length = (setup.g2Vec.take (2 ^ nu)).length := by simp [hg2]
  rw [commit]
  simp only [Nat.one_shiftLeft]
  rw [Outcome.check_true (by rw [hlen, pow_add]), Outcome.ok_bind, sliceTo_ok hg1, Outcome.ok_bind, hrows,
    Outcome.ok_bind, sliceTo_ok hg2, Outcome.ok_bind, ← rows, multiPair_ok hpair, Outcome.ok_bind, Mode.mask_sample]
  rfl

/-- The row commitments against the row vector are the generators against the column vector. -/
theorem msm_rows {poly : ArkworksPolynomial F} {gens : List G1} {nu sigma : Nat} {left : List F}
    (hleft : left.length = 2 ^ nu) :
    msm (poly.rows gens nu sigma) left =
      msm (gens.take (2 ^ sigma)) (poly.vectorMatrixProduct left nu sigma) := by
  have hgens : (gens.take (2 ^ sigma)).length ≤ 2 ^ sigma := by simp
  rw [msm_eq_sum (n := 2 ^ nu) (by simp), msm_eq_sum hgens, vectorMatrixProduct_eq hleft]
  have hrow : ∀ i ∈ range (2 ^ nu), left.getD i 0 • (poly.rows gens nu sigma).getD i 0 =
      ∑ j ∈ range (2 ^ sigma), (left.getD i 0 * poly.coefficients.getD (i * 2 ^ sigma + j) 0) •
        (gens.take (2 ^ sigma)).getD j 0 := by
    intro i hi
    rw [rows, getD_map_range (mem_range.mp hi), msm_eq_sum hgens, smul_sum]
    refine sum_congr rfl fun j hj => ?_
    rw [getD_row (mem_range.mp hj), smul_smul]
  rw [sum_congr rfl hrow, sum_comm]
  refine sum_congr rfl fun j hj => ?_
  rw [getD_map_range (mem_range.mp hj), sum_smul]

end ArkworksPolynomial

end LightningJolt.Dory
