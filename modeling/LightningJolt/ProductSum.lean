/-
The round polynomial of a sum of products (`jolt-core/src/subprotocols/mles_product_sum.rs`):
the kernels that add to accumulators in Montgomery form, the fold over the two tables of the
split equality polynomial, and the quotient times its linear factor.
-/
import LightningJolt.ProductKernels
import LightningJolt.RaPolynomials
import LightningJolt.SparseEval
import LightningJolt.GruenPoly
import LightningJolt.OnChainSumcheck

namespace LightningJolt

open Finset

/-! ## Accumulators -/

/-- The constant of the Montgomery form. -/
def montgomeryR : Fr := (2 ^ 256 : Nat)

/-- The representation of the elements by integers and the reduction of an accumulator, which
the field's library defines, with what these are documented to be. -/
structure MontgomeryForm where
  /-- The integer that stands for an element, `self.0`. -/
  form : Fr → Nat
  /-- `from_montgomery_reduce`: the element whose form is the integer divided by the constant. -/
  fromMontgomeryReduce : Nat → Fr
  cast_form : ∀ a, (form a : Fr) = a * montgomeryR
  reduce_eq : ∀ x : Nat, fromMontgomeryReduce x = (x : Fr) * montgomeryR⁻¹ * montgomeryR⁻¹

section Accumulators

variable (m : MontgomeryForm)

def toUnreduced (a : Fr) : Nat := m.form a

/-- `mul_to_product_accum`, the product as an integer. -/
def mulToProductAccum (a b : Fr) : Nat := m.form a * m.form b

def reduceProductAccum (x : Nat) : Fr := m.fromMontgomeryReduce x

/-- The lanes with what is added to them. -/
def addLanes (outputs terms : List Nat) : List Nat := List.zipWith (· + ·) outputs terms

def evalProd2Accumulate (outputs : List Nat) : List (Fr × Fr) → List Nat
  | [p, q] =>
    addLanes outputs [mulToProductAccum m p.2 q.2, mulToProductAccum m (p.2 - p.1) (q.2 - q.1)]
  | _ => outputs

def evalProd3Accumulate (outputs : List Nat) : List (Fr × Fr) → List Nat
  | [p, q, b] =>
    let (a1, a2, aInf) := evalLinearProd2Internal p q
    let bInf := b.2 - b.1
    let b2 := b.2 + bInf
    addLanes outputs [mulToProductAccum m a1 b.2, mulToProductAccum m a2 b2, mulToProductAccum m aInf bInf]
  | _ => outputs

def evalProd5Accumulate (outputs : List Nat) : List (Fr × Fr) → List Nat
  | [p0, p1, p2, p3, p4] =>
    addLanes outputs ((evalProd5Halves p0 p1 p2 p3 p4).map fun ab => mulToProductAccum m ab.1 ab.2)
  | _ => outputs

def evalProd9Accumulate (outputs : List Nat) (p : List (Fr × Fr)) : List Nat :=
  let a := evalLinearProd8Internal (p.take 8)
  match p.drop 8 with
  | [lin] =>
    let delta := lin.2 - lin.1
    let l1 := lin.2
    let l2 := l1 + delta
    let l3 := l2 + delta
    let l4 := l3 + delta
    let l5 := l4 + delta
    let l6 := l5 + delta
    let l7 := l6 + delta
    let l8 := l7 + delta
    addLanes outputs (List.zipWith (mulToProductAccum m) a [l1, l2, l3, l4, l5, l6, l7, l8, delta])
  | _ => outputs

/-- What the naive kernel adds at each point, and at infinity. -/
def naiveLanes : Nat → List Fr → List Fr → List Nat
  | 0, _, pinfs => [toUnreduced m (pinfs.foldl (· * ·) 1)]
  | points + 1, curVals, pinfs =>
    toUnreduced m (curVals.foldl (· * ·) 1) ::
      naiveLanes points (List.zipWith (· + ·) curVals pinfs) pinfs

/-- `product_eval_univariate_naive_accumulate`. -/
def productEvalUnivariateNaiveAccumulate (pairs : List (Fr × Fr)) (sums : List Nat) : List Nat :=
  if pairs = [] then sums
  else addLanes sums
    (naiveLanes m (pairs.length - 1) (pairs.map Prod.snd) (pairs.map fun p => p.2 - p.1))

/-- `eval_linear_prod_accumulate`. -/
def evalLinearProdAccumulate (pairs : List (Fr × Fr)) (sums : List Nat) : List Nat :=
  match pairs.length with
  | 2 => evalProd2Accumulate m sums pairs
  | 3 => evalProd3Accumulate m sums pairs
  | 5 => evalProd5Accumulate m sums pairs
  | 9 => evalProd9Accumulate m sums pairs
  | _ => productEvalUnivariateNaiveAccumulate m pairs sums

/-! ## What the accumulators stand for -/

theorem montgomeryR_ne_zero : montgomeryR ≠ 0 := by
  rw [montgomeryR, Ne, ZMod.natCast_eq_zero_iff]
  decide

theorem montgomeryR_ne_one : montgomeryR ≠ 1 := by
  intro h
  have hval := congrArg ZMod.val h
  rw [montgomeryR, ZMod.val_natCast, ZMod.val_one] at hval
  revert hval
  decide

theorem reduceProductAccum_add (x y : Nat) :
    reduceProductAccum m (x + y) = reduceProductAccum m x + reduceProductAccum m y := by
  rw [reduceProductAccum, m.reduce_eq, Nat.cast_add, add_mul, add_mul, ← m.reduce_eq, ← m.reduce_eq]
  rfl

theorem reduceProductAccum_mul (a b : Fr) : reduceProductAccum m (mulToProductAccum m a b) = a * b := by
  have hne := montgomeryR_ne_zero
  rw [reduceProductAccum, mulToProductAccum, m.reduce_eq, Nat.cast_mul, m.cast_form, m.cast_form]
  field_simp

/-- **An element added by itself** is divided by the constant: its form has it once, a product twice. -/
theorem reduceProductAccum_toUnreduced (a : Fr) :
    reduceProductAccum m (toUnreduced m a) = a * montgomeryR⁻¹ := by
  have hne := montgomeryR_ne_zero
  rw [reduceProductAccum, toUnreduced, m.reduce_eq, m.cast_form]
  field_simp

theorem map_reduce_addLanes (outputs terms : List Nat) :
    (addLanes outputs terms).map (reduceProductAccum m) =
      List.zipWith (· + ·) (outputs.map (reduceProductAccum m)) (terms.map (reduceProductAccum m)) := by
  rw [addLanes, List.map_zipWith, List.zipWith_map]
  simp only [reduceProductAccum_add]

theorem map_reduce_products (abs : List (Fr × Fr)) :
    (abs.map fun ab => mulToProductAccum m ab.1 ab.2).map (reduceProductAccum m) =
      abs.map fun ab => ab.1 * ab.2 := by
  rw [List.map_map]
  exact List.map_congr_left fun ab _ => reduceProductAccum_mul m ab.1 ab.2

theorem naiveLanes_eq (ps : List (Fr × Fr)) (points s : Nat) :
    naiveLanes m points (ps.map fun p => line (s : Fr) p.1 p.2) (ps.map fun p => p.2 - p.1) =
      (tableOf points (fun k => valueAt ps (s + k)) ++ [leadingProduct ps]).map (toUnreduced m) := by
  induction points generalizing s with
  | zero =>
    rw [naiveLanes, ← List.prod_eq_foldl]
    rfl
  | succ points ih =>
    have hstep : List.zipWith (· + ·) (ps.map fun p => line (s : Fr) p.1 p.2) (ps.map fun p => p.2 - p.1) =
        ps.map fun p => line ((s + 1 : Nat) : Fr) p.1 p.2 := by
      rw [List.zipWith_map, List.zipWith_self]
      refine List.map_congr_left fun p _ => ?_
      simp only [line]
      push_cast
      ring
    rw [naiveLanes, hstep, ih, ← List.prod_eq_foldl, Nat.add_comm points 1, tableOf_add]
    simp only [Nat.add_assoc]
    rfl

section Accumulate

variable {pairs : List (Fr × Fr)} {sums : List Nat}

/-- The numbers of factors that have an accumulating kernel of their own. -/
def ownKernel : List Nat := [2, 3, 5, 9]

theorem map_reduce_own (h : pairs.length ∈ ownKernel) :
    (evalLinearProdAccumulate m pairs sums).map (reduceProductAccum m) =
      List.zipWith (· + ·) (sums.map (reduceProductAccum m)) (grid pairs) := by
  rw [ownKernel] at h
  simp only [List.mem_cons, List.not_mem_nil, or_false] at h
  unfold evalLinearProdAccumulate
  rcases h with h | h | h | h
  · rw [h]
    match pairs, h with
    | [p, q], _ =>
      simp only [evalProd2Accumulate, map_reduce_addLanes, List.map_cons, List.map_nil, reduceProductAccum_mul]
      rw [← evalProd2Assign_eq rfl]
      rfl
  · rw [h]
    match pairs, h with
    | [p, q, b], _ =>
      simp only [evalProd3Accumulate, map_reduce_addLanes, List.map_cons, List.map_nil, reduceProductAccum_mul]
      rw [← evalProd3Assign_eq rfl]
      rfl
  · rw [h]
    match pairs, h with
    | [p0, p1, p2, p3, p4], _ =>
      simp only [evalProd5Accumulate, map_reduce_addLanes, map_reduce_products]
      rw [← evalProd5Assign_eq rfl]
      rfl
  · have hl : (pairs.take 8).length = 8 := by rw [List.length_take, h]; rfl
    obtain ⟨lin, hlin⟩ := List.length_eq_one_iff.mp (show (pairs.drop 8).length = 1 by rw [List.length_drop, h])
    have hgrid : grid pairs = List.zipWith (· * ·) (gridTo 8 (pairs.take 8)) (gridTo 8 [lin]) := by
      rw [grid, h, gridTo_halves 8 8, hlin]
    rw [h]
    simp only [evalProd9Accumulate, hlin, map_reduce_addLanes, evalLinearProd8Internal_eq hl, List.map_zipWith,
      reduceProductAccum_mul, hgrid, gridTo_singleton]
    rfl

theorem map_reduce_naive (hne : pairs ≠ []) (h : pairs.length ∉ ownKernel) :
    (evalLinearProdAccumulate m pairs sums).map (reduceProductAccum m) =
      List.zipWith (· + ·) (sums.map (reduceProductAccum m)) ((grid pairs).map (· * montgomeryR⁻¹)) := by
  have hlanes := naiveLanes_eq m pairs (pairs.length - 1) 1
  have hstart : (pairs.map fun p => line ((1 : Nat) : Fr) p.1 p.2) = pairs.map Prod.snd :=
    List.map_congr_left fun p _ => by simp [line]
  simp only [hstart, Nat.add_comm 1] at hlanes
  have hnaive : evalLinearProdAccumulate m pairs sums = addLanes sums ((grid pairs).map (toUnreduced m)) := by
    rw [ownKernel] at h
    simp only [List.mem_cons, List.not_mem_nil, or_false, not_or] at h
    unfold evalLinearProdAccumulate
    split
    case h_1 hlen => exact absurd hlen h.1
    case h_2 hlen => exact absurd hlen h.2.1
    case h_3 hlen => exact absurd hlen h.2.2.1
    case h_4 hlen => exact absurd hlen h.2.2.2
    case h_5 => rw [productEvalUnivariateNaiveAccumulate, if_neg hne, hlanes, grid, gridTo]
  rw [hnaive, map_reduce_addLanes, List.map_map]
  congr 1
  exact List.map_congr_left fun a _ => reduceProductAccum_toUnreduced m a

/-- Some factor vanishes at each of the points, and some factor is constant. -/
def Vanishes (pairs : List (Fr × Fr)) : Prop :=
  (∀ k, 1 ≤ k → k < pairs.length → ∃ p ∈ pairs, line (k : Fr) p.1 p.2 = 0) ∧ ∃ p ∈ pairs, p.1 = p.2

theorem vanishes_iff (hne : pairs ≠ []) : Vanishes pairs ↔ ∀ v ∈ grid pairs, v = 0 := by
  have hpos := List.length_pos_iff.mpr hne
  have hvalue (k : Nat) : valueAt pairs k = 0 ↔ ∃ p ∈ pairs, line (k : Fr) p.1 p.2 = 0 := by
    rw [valueAt, productAt, List.prod_eq_zero_iff, List.mem_map]
  have hleading : leadingProduct pairs = 0 ↔ ∃ p ∈ pairs, p.1 = p.2 := by
    rw [leadingProduct, List.prod_eq_zero_iff, List.mem_map]
    simp only [sub_eq_zero, eq_comm]
  rw [Vanishes, grid, gridTo, List.forall_mem_append, List.forall_mem_singleton, hleading, tableOf,
    List.forall_mem_map]
  refine and_congr_left fun _ => ⟨fun h k hk => ?_, fun h k hk1 hk => ?_⟩
  · rw [List.mem_range] at hk
    exact (hvalue _).mpr (h (k + 1) (by omega) (by omega))
  · have hk' := (hvalue _).mp (h (k - 1) (List.mem_range.mpr (by omega)))
    rwa [Nat.sub_add_cancel hk1] at hk'

/-- **The accumulating kernels are exact** for the numbers of factors that have their own; the
naive one adds what is divided by the constant, and is exact on products that are zero. -/
theorem evalLinearProdAccumulate_exact_iff (hne : pairs ≠ []) (hlen : sums.length = pairs.length) :
    (evalLinearProdAccumulate m pairs sums).map (reduceProductAccum m) =
        List.zipWith (· + ·) (sums.map (reduceProductAccum m)) (grid pairs) ↔
      pairs.length ∈ ownKernel ∨ Vanishes pairs := by
  by_cases hown : pairs.length ∈ ownKernel
  · exact iff_of_true (map_reduce_own m hown) (.inl hown)
  · rw [map_reduce_naive m hne hown, or_iff_right hown, vanishes_iff hne]
    have hsame : (sums.map (reduceProductAccum m)).length = (grid pairs).length := by
      rw [List.length_map, hlen, length_grid hne]
    constructor
    · intro h v hv
      obtain ⟨k, hk, rfl⟩ := List.getElem_of_mem hv
      have hentry := congrArg (·[k]?) h
      have hksums : k < (sums.map (reduceProductAccum m)).length := hsame ▸ hk
      simp only [List.getElem?_zipWith, List.getElem?_map, List.getElem?_eq_getElem hk,
        List.getElem?_eq_getElem hksums, Option.map_some, Option.some.injEq, add_right_inj] at hentry
      have hscaled : (grid pairs)[k] * (montgomeryR⁻¹ - 1) = 0 := by rw [mul_sub, mul_one, hentry, sub_self]
      rcases mul_eq_zero.mp hscaled with hzero | hone
      · exact hzero
      · exact absurd (inv_eq_one.mp (sub_eq_zero.mp hone)) montgomeryR_ne_one
    · intro h
      congr 1
      conv_rhs => rw [← List.map_id (grid pairs)]
      exact List.map_congr_left fun v hv => by rw [h v hv, zero_mul]; rfl

end Accumulate

end Accumulators

/-! ## The fold over the tables -/

variable {F C : Type} [JoltField F] [Challenge C F]

namespace GruenSplitEqPolynomial

/-- `par_fold_out_in`; the items of the outer table are merged from the first on. -/
def parFoldOutIn {Inner Outer : Type} (s : GruenSplitEqPolynomial F C) (makeInner : Inner)
    (innerStep : Inner → Nat → Nat → F → Option Inner) (outerStep : Nat → F → Inner → Outer)
    (merge : Outer → Outer → Outer) : Option Outer := do
  let eOut ← s.eOutCurrent
  let eIn ← s.eInCurrent
  let numXInBits ← log2 eIn.length
  let items ← (List.range eOut.length).mapM fun xOut => do
    let inner ← (List.range eIn.length).foldlM (fun inner xIn =>
      innerStep inner (xOut <<< numXInBits ||| xIn) xIn (eIn.getD xIn 0)) makeInner
    .some (outerStep xOut (eOut.getD xOut 0) inner)
  match items with
  | [] => .none
  | first :: rest => .some (rest.foldl merge first)

/-- `par_fold_out_in_unreduced`. -/
def parFoldOutInUnreduced (s : GruenSplitEqPolynomial F C) (numOut : Nat)
    (perGValues : Nat → Option (List F)) : Option (List F) :=
  s.parFoldOutIn (List.replicate numOut 0)
    (fun inner g _ eIn => do
      .some (List.zipWith (fun lane val => lane + eIn * val) inner (← perGValues g)))
    (fun _ eOut inner => inner.map (eOut * ·))
    (List.zipWith (· + ·))

end GruenSplitEqPolynomial

/-- The values of the product at a place of the tables, by a kernel. -/
def endpointsAt (evalProd : List (F × F) → List F) (mles : List (RaPolynomial F)) (g : Nat) :
    Option (List F) := do
  let pairs ← mles.mapM fun mle => do
    .some (← mle.getBoundCoeff (2 * g), ← mle.getBoundCoeff (2 * g + 1))
  .some (evalProd pairs)

/-- `impl_mles_product_sum_evals_d`. -/
def computeMlesProductSumEvalsD (d : Nat) (evalProd : List (F × F) → List F)
    (mles : List (RaPolynomial F)) (s : GruenSplitEqPolynomial F C) : Option (List F) := do
  .some ((← s.parFoldOutInUnreduced d (endpointsAt evalProd mles)).map (· * s.currentScalar))

/-- `compute_mles_product_sum_evals_d16`. -/
def computeMlesProductSumEvalsD16 (mles : List (RaPolynomial F)) (s : GruenSplitEqPolynomial F C) :
    Option (List F) :=
  computeMlesProductSumEvalsD 16 evalProd16Assign mles s

/-- `compute_mles_product_sum_evals_d32`. -/
def computeMlesProductSumEvalsD32 (mles : List (RaPolynomial F)) (s : GruenSplitEqPolynomial F C) :
    Option (List F) :=
  computeMlesProductSumEvalsD 32 evalProd32Assign mles s

/-- `compute_mles_product_sum_evals_generic`, which spells the same fold out. -/
def computeMlesProductSumEvalsGeneric (mles : List (RaPolynomial F)) (s : GruenSplitEqPolynomial F C) :
    Option (List F) :=
  computeMlesProductSumEvalsD mles.length evalLinearProdAssign mles s

/-- `finish_mles_product_sum_from_evals`. -/
def finishMlesProductSumFromEvals [DecidableEq F] (sumEvals : List F) (claim : F)
    (s : GruenSplitEqPolynomial F C) : Option (UniPoly F) := do
  let rRound : F := Challenge.into (← s.getCurrentW)
  let eqEvalAt0 := 1 - rRound
  let eqEvalAt1 := rRound
  let evalAt1 ← sumEvals.head?
  let evalAt0 ← GruenSplitEqPolynomial.divide (claim - eqEvalAt1 * evalAt1) eqEvalAt0
  let tmp ← UniPoly.fromEvalsToom (evalAt0 :: sumEvals)
  .some ⟨GruenSplitEqPolynomial.mulLoop (1 - rRound) (rRound + rRound - 1) 0 tmp.coeffs⟩

/-- The dispatch of `compute_mles_product_sum`. -/
def computeMlesProductSumEvals (mles : List (RaPolynomial F)) (s : GruenSplitEqPolynomial F C) :
    Option (List F) :=
  match mles.length with
  | 16 => computeMlesProductSumEvalsD16 mles s
  | 32 => computeMlesProductSumEvalsD32 mles s
  | _ => computeMlesProductSumEvalsGeneric mles s

/-- `compute_mles_product_sum`. -/
def computeMlesProductSum [DecidableEq F] (mles : List (RaPolynomial F)) (claim : F)
    (s : GruenSplitEqPolynomial F C) : Option (UniPoly F) := do
  finishMlesProductSumFromEvals (← computeMlesProductSumEvals mles s) claim s

/-! ## The fold is a sum over the table -/

theorem foldlM_lanes {d n : Nat} {e : Nat → F} {values : Nat → Option (List F)} {f : Nat → Nat → F}
    (h : ∀ i < n, values i = .some (tableOf d (f i))) :
    (List.range n).foldlM (fun inner i => do
        .some (List.zipWith (fun lane val => lane + e i * val) inner (← values i))) (List.replicate d 0) =
      .some (tableOf d fun k => ∑ i ∈ range n, e i * f i k) := by
  induction n with
  | zero =>
    have hzero : List.replicate d (0 : F) = tableOf d fun _ => 0 := by
      rw [tableOf, List.map_const', List.length_range]
    rw [List.range_zero, List.foldlM_nil, hzero]
    rfl
  | succ n ih =>
    rw [List.range_succ, List.foldlM_append, ih fun i hi => h i (Nat.lt_succ_of_lt hi)]
    simp only [Option.bind_eq_bind, Option.bind_some, List.foldlM_cons, List.foldlM_nil, h n (Nat.lt_succ_self n),
      zipWith_tableOf, sum_range_succ]
    rfl

theorem foldl_lanes (d m : Nat) (a : Nat → F) (f : Nat → Nat → F) :
    (tableOf m fun i => tableOf d (f i)).foldl (List.zipWith (· + ·)) (tableOf d a) =
      tableOf d fun k => a k + ∑ i ∈ range m, f i k := by
  induction m with
  | zero => simp [tableOf]
  | succ m ih =>
    rw [tableOf_add, List.foldl_append, ih]
    simp only [tableOf, List.range_succ, List.range_zero, List.nil_append, List.map_cons, List.map_nil,
      List.foldl_cons, List.foldl_nil, Nat.add_zero]
    rw [← tableOf, ← tableOf, zipWith_tableOf]
    exact tableOf_congr fun k _ => by rw [sum_range_succ, add_assoc]

namespace GruenSplitEqPolynomial

omit [Challenge C F] in
/-- **The fold over the two tables** is the sum over their products. -/
theorem parFoldOutInUnreduced_eq {s : GruenSplitEqPolynomial F C} {eOut eIn : List F} {b d : Nat}
    {values : Nat → Option (List F)} {f : Nat → Nat → F} (hout : s.eOutCurrent = .some eOut)
    (hin : s.eInCurrent = .some eIn) (hlen : eIn.length = 2 ^ b) (hne : eOut ≠ [])
    (hvalues : ∀ g < eOut.length * eIn.length, values g = .some (tableOf d (f g))) :
    s.parFoldOutInUnreduced d values = .some (tableOf d fun k =>
      ∑ g ∈ range (eOut.length * eIn.length), (tensor eOut eIn).getD g 0 * f g k) := by
  have hindex {xOut xIn : Nat} (hxIn : xIn < eIn.length) : xOut <<< b ||| xIn = xOut * eIn.length + xIn := by
    rw [hlen] at hxIn ⊢
    rw [← Nat.shiftLeft_add_eq_or_of_lt hxIn, Nat.shiftLeft_eq]
  have hinner (xOut : Nat) (hxOut : xOut < eOut.length) :
      (List.range eIn.length).foldlM (fun inner xIn => do
        .some (List.zipWith (fun lane val => lane + eIn.getD xIn 0 * val) inner
          (← values (xOut <<< b ||| xIn)))) (List.replicate d 0) =
      .some (tableOf d fun k => ∑ xIn ∈ range eIn.length, eIn.getD xIn 0 * f (xOut * eIn.length + xIn) k) :=
    foldlM_lanes fun xIn hxIn => by
      rw [hindex hxIn]
      exact hvalues _ (split_lt hxOut hxIn)
  have hitems : (List.range eOut.length).mapM (fun xOut => do
      let inner ← (List.range eIn.length).foldlM (fun inner xIn => do
        .some (List.zipWith (fun lane val => lane + eIn.getD xIn 0 * val) inner
          (← values (xOut <<< b ||| xIn)))) (List.replicate d 0)
      .some (inner.map (eOut.getD xOut 0 * ·))) = .some (tableOf eOut.length fun xOut => tableOf d fun k =>
        eOut.getD xOut 0 * ∑ xIn ∈ range eIn.length, eIn.getD xIn 0 * f (xOut * eIn.length + xIn) k) := by
    refine mapM_range fun xOut hxOut => ?_
    rw [hinner xOut hxOut, Option.bind_eq_bind, Option.bind_some, map_tableOf]
  obtain ⟨n, hn⟩ : ∃ n, eOut.length = 1 + n := ⟨eOut.length - 1, by
    have := List.length_pos_iff.mpr hne
    omega⟩
  rw [parFoldOutInUnreduced, parFoldOutIn, hout, hin]
  simp only [Option.bind_eq_bind, Option.bind_some, hlen, EqPolynomial.log2_pow]
  simp only [Option.bind_eq_bind, hlen] at hitems
  rw [hitems, Option.bind_some, hn, tableOf_add]
  simp only [tableOf, List.range_succ, List.range_zero, List.nil_append, List.map_cons, List.map_nil,
    List.cons_append]
  refine congrArg Option.some ((foldl_lanes d n _ _).trans (tableOf_congr fun k _ => ?_))
  rw [Nat.add_comm 1 n, sum_range_mul, sum_range_succ', add_comm]
  have hproduct (xOut : Nat) : (∑ xIn ∈ range (2 ^ b),
      (tensor eOut eIn).getD (xOut * 2 ^ b + xIn) 0 * f (xOut * 2 ^ b + xIn) k) =
      eOut.getD xOut 0 * ∑ xIn ∈ range (2 ^ b), eIn.getD xIn 0 * f (xOut * 2 ^ b + xIn) k := by
    rw [mul_sum]
    refine sum_congr rfl fun xIn hxIn => ?_
    rw [← hlen] at hxIn ⊢
    rw [getD_tensor _ _ _ (mem_range.mp hxIn), mul_assoc]
  simp only [hproduct, Nat.add_comm 1]

/-- The tables of a state, and the table with one more value bound. -/
theorem LowAt.boundTable_concat {scale : F} {w rs : List C} {s : GruenSplitEqPolynomial F C}
    (h : LowAt scale w rs s) {current : C} (hcurrent : s.getCurrentW = .some current)
    (hlt : rs.length < w.length) :
    ∃ eOut eIn a b, s.eOutCurrent = .some eOut ∧ s.eInCurrent = .some eIn ∧ eOut.length = 2 ^ a ∧
      eIn.length = 2 ^ b ∧ a + b + 1 = w.length - rs.length ∧
      ∀ x, boundTable .lowToHigh scale (coordinates F w) (coordinates F rs ++ [x]) =
        (tensor eOut eIn).map (s.currentScalar * eqFactor (Challenge.into current) x * ·) := by
  obtain ⟨k, hk⟩ : ∃ k, w.length - rs.length = k + 1 := ⟨w.length - rs.length - 1, by omega⟩
  have hkw : k < w.length := by omega
  rw [h.getCurrentW hlt] at hcurrent
  have hcurrent' : w.get ⟨k, hkw⟩ = current := by
    rw [← Option.some.inj hcurrent]
    simp [hk]
  refine ⟨lowOut (coordinates F w) (min (w.length / 2) k), lowIn (coordinates F w) (k - w.length / 2),
    min (w.length / 2) k, k - w.length / 2, ?_, ?_, ?_, ?_, by omega, fun x => ?_⟩
  · rw [eOutCurrent, h.eOutVec, getLast?_tableStack, hk, Nat.add_sub_cancel]
  · rw [eInCurrent, h.eInVec, getLast?_tableStack, hk, Nat.add_sub_cancel]
  · rw [lowOut, length_eqTable, List.length_take, length_coordinates]
    congr 1
    omega
  · rw [lowIn, length_eqTable, List.length_take, List.length_drop, length_coordinates]
    congr 1
    omega
  · have hrest : (coordinates F w).length - (coordinates F rs ++ [x]).length = k := by
      rw [List.length_append, length_coordinates, length_coordinates, List.length_singleton]
      omega
    rw [boundTable_lowToHigh (by simp; omega), hrest, eqTable_take, length_coordinates,
      drop_coordinates hkw, hcurrent', List.reverse_concat, eqMle_cons, h.currentScalar, hk]
    congr 1
    funext y
    ring

end GruenSplitEqPolynomial

/-! ## The round polynomial -/

/-- What a polynomial reads are the coefficients of a table. -/
def ReadsTable (mle : RaPolynomial F) (table : List F) : Prop :=
  ∀ j < table.length, mle.getBoundCoeff j = table[j]?

/-- The sum over the cube of the equality polynomial times the product, after the challenges `rs`
and with the variable of the round bound to `x`. -/
def roundSum (scale : F) (w rs : List F) (tables : List (List F)) (x : F) : F :=
  let weights := boundTable .lowToHigh scale w (rs ++ [x])
  ∑ g ∈ range weights.length, weights.getD g 0 *
    (tables.map fun table => (DensePolynomial.bind .lowToHigh table x).getD g 0).prod

/-- The factors at a place of the tables. -/
def pairsAt (tables : List (List F)) (g : Nat) : List (F × F) :=
  tables.map fun table => (table.getD (2 * g) 0, table.getD (2 * g + 1) 0)

theorem getD_bind_lowToHigh {table : List F} {g n : Nat} (hlen : table.length = 2 * n) (hg : g < n) (x : F) :
    (DensePolynomial.bind .lowToHigh table x).getD g 0 =
      line x (table.getD (2 * g) 0) (table.getD (2 * g + 1) 0) := by
  have htable : table = tableOf (2 * n) fun i => table.getD i 0 := by rw [← hlen, tableOf_getD]
  conv_lhs => rw [htable]
  rw [DensePolynomial.bind_tableOf, getD_tableOf hg]
  rfl

theorem productAt_pairsAt {tables : List (List F)} {g n : Nat} (hlen : ∀ t ∈ tables, t.length = 2 * n)
    (hg : g < n) (x : F) :
    productAt (pairsAt tables g) x =
      (tables.map fun table => (DensePolynomial.bind .lowToHigh table x).getD g 0).prod := by
  rw [productAt, pairsAt, List.map_map]
  congr 1
  exact List.map_congr_left fun t ht => (getD_bind_lowToHigh (hlen t ht) hg x).symm

theorem mapM_pairsAt {mles : List (RaPolynomial F)} {tables : List (List F)} {g n : Nat}
    (h : List.Forall₂ (fun mle table => table.length = 2 * n ∧ ReadsTable mle table) mles tables) (hg : g < n) :
    (mles.mapM fun mle => do
      .some ((← mle.getBoundCoeff (2 * g), ← mle.getBoundCoeff (2 * g + 1)) : F × F)) =
        .some (pairsAt tables g) := by
  induction h with
  | nil => rfl
  | @cons mle table mles tables hhead _ ih =>
    obtain ⟨hlen, hreads⟩ := hhead
    have hget {j : Nat} (hj : j < 2 * n) : mle.getBoundCoeff j = .some (table.getD j 0) := by
      rw [hreads j (hlen ▸ hj), List.getD_eq_getElem?_getD, List.getElem?_eq_getElem (hlen ▸ hj),
        Option.getD_some]
    rw [List.mapM_cons, ih, hget (by omega), hget (by omega)]
    rfl

/-- The quotient of the round polynomial by its linear factor. -/
noncomputable def quotient (scalar : F) (weights : List F) (tables : List (List F)) : Polynomial F :=
  Polynomial.C scalar *
    ∑ g ∈ range weights.length, Polynomial.C (weights.getD g 0) * productPoly (pairsAt tables g)

theorem eval_quotient (scalar : F) (weights : List F) (tables : List (List F)) (x : F) :
    (quotient scalar weights tables).eval x =
      scalar * ∑ g ∈ range weights.length, weights.getD g 0 * productAt (pairsAt tables g) x := by
  rw [quotient, Polynomial.eval_mul, Polynomial.eval_C, Polynomial.eval_finsetSum]
  simp only [Polynomial.eval_mul, Polynomial.eval_C, eval_productPoly]

theorem length_pairsAt (tables : List (List F)) (g : Nat) : (pairsAt tables g).length = tables.length :=
  List.length_map _

theorem coeff_quotient (scalar : F) (weights : List F) (tables : List (List F)) :
    (quotient scalar weights tables).coeff tables.length =
      scalar * ∑ g ∈ range weights.length, weights.getD g 0 * leadingProduct (pairsAt tables g) := by
  rw [quotient, Polynomial.coeff_C_mul, Polynomial.finsetSum_coeff]
  congr 1
  refine sum_congr rfl fun g _ => ?_
  rw [Polynomial.coeff_C_mul, ← length_pairsAt tables g, coeff_productPoly]

theorem natDegree_quotient_le (scalar : F) (weights : List F) (tables : List (List F)) :
    (quotient scalar weights tables).natDegree ≤ tables.length := by
  refine (Polynomial.natDegree_C_mul_le _ _).trans (Polynomial.natDegree_sum_le_of_forall_le _ _ fun g _ => ?_)
  exact (Polynomial.natDegree_C_mul_le _ _).trans
    ((natDegree_productPoly_le _).trans (length_pairsAt tables g).le)

/-- A polynomial is that of its coefficients up to its degree. -/
theorem ofCoeffs_tableOf_coeff {q : Polynomial F} {d : Nat} (h : q.natDegree ≤ d) :
    ofCoeffs (tableOf d q.coeff ++ [q.coeff d]) = q := by
  have htable : tableOf d q.coeff ++ [q.coeff d] = tableOf (d + 1) q.coeff := by
    rw [tableOf_add]
    rfl
  ext n
  rw [htable, coeff_ofCoeffs]
  by_cases hn : n < d + 1
  · rw [getD_tableOf hn]
  · rw [List.getD_eq_default _ _ (by rw [length_tableOf]; omega),
      Polynomial.coeff_eq_zero_of_natDegree_lt (by omega)]

/-- The grid by lane: a value, or at the last the leading coefficient. -/
theorem grid_eq_tableOf {pairs : List (F × F)} {d : Nat} (hd : pairs.length = d + 1) :
    grid pairs = tableOf (d + 1) fun k => if k < d then valueAt pairs (k + 1) else leadingProduct pairs := by
  rw [grid, gridTo, hd, Nat.add_sub_cancel, tableOf_add]
  congr 1
  · exact tableOf_congr fun k hk => (if_pos hk).symm
  · simp [tableOf]

omit [Challenge C F] in
/-- The values that the fold finds are those of the quotient. -/
theorem computeMlesProductSumEvalsD_eq {s : GruenSplitEqPolynomial F C} {eOut eIn : List F} {a b d : Nat}
    {evalProd : List (F × F) → List F} {mles : List (RaPolynomial F)} {tables : List (List F)}
    (hout : s.eOutCurrent = .some eOut) (hin : s.eInCurrent = .some eIn) (hlenOut : eOut.length = 2 ^ a)
    (hlenIn : eIn.length = 2 ^ b) (hlen : tables.length = d + 1)
    (heval : ∀ pairs, pairs.length = d + 1 → evalProd pairs = grid pairs)
    (hreads : List.Forall₂ (fun mle table => table.length = 2 * (eOut.length * eIn.length) ∧ ReadsTable mle table)
      mles tables) :
    computeMlesProductSumEvalsD (d + 1) evalProd mles s =
      .some (((List.range d).map fun i : Nat =>
          (quotient s.currentScalar (tensor eOut eIn) tables).eval ((i + 1 : Nat) : F)) ++
        [(quotient s.currentScalar (tensor eOut eIn) tables).coeff (d + 1)]) := by
  have hvalues (g : Nat) (hg : g < eOut.length * eIn.length) : endpointsAt evalProd mles g =
      .some (tableOf (d + 1) ((fun g k => if k < d then valueAt (pairsAt tables g) (k + 1)
        else leadingProduct (pairsAt tables g)) g)) := by
    have hpairs : (pairsAt tables g).length = d + 1 := (length_pairsAt tables g).trans hlen
    rw [endpointsAt, mapM_pairsAt hreads hg, Option.bind_eq_bind, Option.bind_some, heval _ hpairs,
      grid_eq_tableOf hpairs]
  have hne : eOut ≠ [] := List.length_pos_iff.mp (hlenOut ▸ Nat.two_pow_pos a)
  rw [computeMlesProductSumEvalsD, GruenSplitEqPolynomial.parFoldOutInUnreduced_eq hout hin hlenIn hne hvalues,
    Option.bind_eq_bind, Option.bind_some, map_tableOf, tableOf_add]
  congr 2
  · refine List.map_congr_left fun k hk => ?_
    rw [List.mem_range] at hk
    simp only [if_pos hk, eval_quotient, length_tensor, valueAt]
    rw [mul_comm]
  · rw [← hlen, coeff_quotient, length_tensor]
    simp [tableOf, mul_comm]

omit [Challenge C F] in
/-- The dispatch finds them, whichever way the number of factors takes. -/
theorem computeMlesProductSumEvals_eq {s : GruenSplitEqPolynomial F C} {eOut eIn : List F} {a b d : Nat}
    {mles : List (RaPolynomial F)} {tables : List (List F)}
    (hout : s.eOutCurrent = .some eOut) (hin : s.eInCurrent = .some eIn) (hlenOut : eOut.length = 2 ^ a)
    (hlenIn : eIn.length = 2 ^ b) (hlen : tables.length = d + 1)
    (hreads : List.Forall₂ (fun mle table => table.length = 2 * (eOut.length * eIn.length) ∧ ReadsTable mle table)
      mles tables) :
    computeMlesProductSumEvals mles s =
      .some (((List.range d).map fun i : Nat =>
          (quotient s.currentScalar (tensor eOut eIn) tables).eval ((i + 1 : Nat) : F)) ++
        [(quotient s.currentScalar (tensor eOut eIn) tables).coeff (d + 1)]) := by
  have hsame : mles.length = d + 1 := hreads.length_eq.trans hlen
  have hgrid (pairs : List (F × F)) (hpairs : pairs.length = d + 1) : evalLinearProdAssign pairs = grid pairs :=
    evalLinearProdAssign_eq (List.ne_nil_of_length_eq_add_one hpairs)
  unfold computeMlesProductSumEvals
  rw [hsame]
  split
  case h_1 harity =>
    rw [computeMlesProductSumEvalsD16, ← harity]
    exact computeMlesProductSumEvalsD_eq hout hin hlenOut hlenIn hlen
      (fun pairs hpairs => evalProd16Assign_eq (hpairs.trans harity)) hreads
  case h_2 harity =>
    rw [computeMlesProductSumEvalsD32, ← harity]
    exact computeMlesProductSumEvalsD_eq hout hin hlenOut hlenIn hlen
      (fun pairs hpairs => evalProd32Assign_eq (hpairs.trans harity)) hreads
  case h_3 =>
    rw [computeMlesProductSumEvalsGeneric, hsame]
    exact computeMlesProductSumEvalsD_eq hout hin hlenOut hlenIn hlen hgrid hreads

/-- The sum of the round is the equality factor of its variable times the quotient. -/
theorem roundSum_eq {scale scalar current : F} {w rs eOut eIn : List F} {tables : List (List F)} {x : F}
    (hbound : boundTable .lowToHigh scale w (rs ++ [x]) =
      (tensor eOut eIn).map (scalar * eqFactor current x * ·))
    (hlen : ∀ t ∈ tables, t.length = 2 * (eOut.length * eIn.length)) :
    roundSum scale w rs tables x = eqFactor current x * (quotient scalar (tensor eOut eIn) tables).eval x := by
  rw [roundSum, hbound, List.length_map, eval_quotient, mul_sum, mul_sum]
  refine sum_congr rfl fun g hg => ?_
  rw [mem_range] at hg
  have hplace : g < eOut.length * eIn.length := by rwa [length_tensor] at hg
  rw [productAt_pairsAt hlen hplace, List.getD_eq_getElem?_getD, List.getElem?_map,
    List.getElem?_eq_getElem hg, Option.map_some, Option.getD_some, List.getD_eq_getElem _ _ hg]
  ring

omit [Challenge C F] in
/-- The linear factor of a state without its scalar. -/
theorem eval_linear_one (s : GruenSplitEqPolynomial F C) (current x : F) :
    (GruenSplitEqPolynomial.linear { s with currentScalar := 1 } current).eval x = eqFactor current x := by
  rw [GruenSplitEqPolynomial.linear, eval_ofCoeffs, eqFactor]
  simp only [horner, List.foldr_cons, List.foldr_nil]
  ring

section RoundPolynomial

variable [DecidableEq F]

/-- The last steps are those of the round polynomial of any degree, without the scalar. -/
theorem finishMlesProductSumFromEvals_eq (sumEvals : List F) (claim : F) (s : GruenSplitEqPolynomial F C) :
    finishMlesProductSumFromEvals sumEvals claim s =
      GruenSplitEqPolynomial.gruenPolyFromEvals { s with currentScalar := 1 } sumEvals claim := by
  unfold finishMlesProductSumFromEvals GruenSplitEqPolynomial.gruenPolyFromEvals
  have hcurrent : GruenSplitEqPolynomial.getCurrentW { s with currentScalar := (1 : F) } = s.getCurrentW := rfl
  have hlinear (r : F) : r - (1 - r) = r + r - 1 := by ring
  simp [hcurrent, EqPolynomial.mle, hlinear]

/-- **The round polynomial** is the sum over the cube, for every value of the variable of the round. -/
theorem computeMlesProductSum_eq {scale : F} {w rs : List C} {s : GruenSplitEqPolynomial F C}
    (h : GruenSplitEqPolynomial.LowAt scale w rs s) (hlt : rs.length < w.length) {current : C}
    (hcurrent : s.getCurrentW = .some current) (hhint : (1 : F) - Challenge.into current ≠ 0)
    {mles : List (RaPolynomial F)} {tables : List (List F)}
    (hreads : List.Forall₂ (fun mle table => table.length = 2 ^ (w.length - rs.length) ∧ ReadsTable mle table)
      mles tables) (htwo : 2 ≤ mles.length) (hchar : ∀ k, 0 < k → k < mles.length → (k : F) ≠ 0) :
    ∃ p, computeMlesProductSum mles (roundSum scale (coordinates F w) (coordinates F rs) tables 0 +
        roundSum scale (coordinates F w) (coordinates F rs) tables 1) s = .some p ∧
      p.coeffs.length = mles.length + 2 ∧
      ∀ x, p.toPolynomial.eval x = roundSum scale (coordinates F w) (coordinates F rs) tables x := by
  obtain ⟨eOut, eIn, a, b, hout, hin, hlenOut, hlenIn, hab, hbound⟩ := h.boundTable_concat hcurrent hlt
  have hsame : mles.length = tables.length := hreads.length_eq
  obtain ⟨d, hd⟩ : ∃ d, tables.length = d + 1 := ⟨tables.length - 1, by omega⟩
  have hhalf : 2 ^ (w.length - rs.length) = 2 * (eOut.length * eIn.length) := by
    rw [hlenOut, hlenIn, ← hab, pow_succ, pow_add]
    ring
  rw [hhalf] at hreads
  have hlen : ∀ t ∈ tables, t.length = 2 * (eOut.length * eIn.length) := by
    intro t ht
    obtain ⟨i, hi, rfl⟩ := List.getElem_of_mem ht
    exact (hreads.get (hsame ▸ hi) hi).1
  have hround (x : F) := roundSum_eq (hbound x) hlen
  have hcoeffs := ofCoeffs_tableOf_coeff
    (hd ▸ natDegree_quotient_le s.currentScalar (tensor eOut eIn) tables)
  have hclaim : roundSum scale (coordinates F w) (coordinates F rs) tables 0 +
      roundSum scale (coordinates F w) (coordinates F rs) tables 1 =
      GruenSplitEqPolynomial.roundClaim (GruenSplitEqPolynomial.linear { s with currentScalar := (1 : F) }
        (Challenge.into current)) (quotient s.currentScalar (tensor eOut eIn) tables) := by
    rw [GruenSplitEqPolynomial.roundClaim, Polynomial.eval_mul, Polynomial.eval_mul, eval_linear_one,
      eval_linear_one, hround, hround]
  obtain ⟨p, hp, hplen, hpoly⟩ := GruenSplitEqPolynomial.gruenPolyFromEvals_eq
    (s := { s with currentScalar := 1 }) hcurrent
    ((quotient s.currentScalar (tensor eOut eIn) tables).coeff (d + 1))
    (show 2 ≤ (tableOf (d + 1) (quotient s.currentScalar (tensor eOut eIn) tables).coeff).length by
      rw [length_tableOf]; omega)
    (fun k hk hlt => hchar k hk (by rw [length_tableOf] at hlt; omega))
    (by rw [eval_linear_one]; simpa [eqFactor] using hhint)
  rw [hcoeffs, length_tableOf, Nat.add_sub_cancel, ← hclaim] at hp
  rw [hcoeffs] at hpoly
  refine ⟨p, ?_, ?_, fun x => ?_⟩
  · rw [computeMlesProductSum, computeMlesProductSumEvals_eq hout hin hlenOut hlenIn hd hreads,
      Option.bind_eq_bind, Option.bind_some, finishMlesProductSumFromEvals_eq, hp]
  · rw [hplen, length_tableOf, hsame, hd]
  · rw [hpoly, Polynomial.eval_mul, eval_linear_one, hround]

end RoundPolynomial

/-! ## The kernels and the round -/

theorem natCast_ne_zero_of_lt {k : Nat} (hpos : 0 < k) (hk : k < 2 ^ 64) : (k : Fr) ≠ 0 := by
  have hmodulus : 2 ^ 64 < scalarModulus := by decide
  rw [Ne, ZMod.natCast_eq_zero_iff]
  exact Nat.not_dvd_of_pos_of_lt hpos (hk.trans hmodulus)

/-- What the kernels are to do with the factors, and with the accumulators. -/
structure KernelsAgree (m : MontgomeryForm) (pairs : List (Fr × Fr)) (sums : List Nat) : Prop where
  assign : evalLinearProdAssign pairs = grid pairs
  naiveAssign : evalLinearProdNaiveAssign pairs = grid pairs
  accumulate : (evalLinearProdAccumulate m pairs sums).map (reduceProductAccum m) =
    List.zipWith (· + ·) (sums.map (reduceProductAccum m)) (grid pairs)

/-- **The kernels agree with the product** exactly where the accumulating one has its own code, or
there is nothing to add; the round polynomial is the sum over the cube for any number of factors. -/
theorem product_kernels_agree_iff {C : Type} [Challenge C Fr] (m : MontgomeryForm) {pairs : List (Fr × Fr)}
    {sums : List Nat} (htwo : 2 ≤ pairs.length) (hsums : sums.length = pairs.length) {w rs : List C}
    {scalingFactor : Option Fr} {start s : GruenSplitEqPolynomial Fr C}
    (hstart : GruenSplitEqPolynomial.newWithScaling w .lowToHigh scalingFactor = .some start)
    (hrun : start.bindAll rs = .some s) (hlt : rs.length < w.length) {current : C}
    (hcurrent : s.getCurrentW = .some current) (hhint : (1 : Fr) - Challenge.into current ≠ 0)
    {mles : List (RaPolynomial Fr)} {tables : List (List Fr)}
    (hreads : List.Forall₂ (fun mle table => table.length = 2 ^ (w.length - rs.length) ∧ ReadsTable mle table)
      mles tables) (hmles : 2 ≤ mles.length) (husize : mles.length < 2 ^ 64) :
    (KernelsAgree m pairs sums ↔ pairs.length ∈ ownKernel ∨ Vanishes pairs) ∧
      ∃ p, computeMlesProductSum mles
          (roundSum (scalingFactor.getD 1) (coordinates Fr w) (coordinates Fr rs) tables 0 +
            roundSum (scalingFactor.getD 1) (coordinates Fr w) (coordinates Fr rs) tables 1) s = .some p ∧
        p.coeffs.length = mles.length + 2 ∧
        ∀ x, p.toPolynomial.eval x =
          roundSum (scalingFactor.getD 1) (coordinates Fr w) (coordinates Fr rs) tables x := by
  have hne : pairs ≠ [] := List.length_pos_iff.mp (by omega)
  have haccumulate := evalLinearProdAccumulate_exact_iff m hne hsums
  have hw : w ≠ [] := List.length_pos_iff.mp (by omega)
  obtain ⟨start', hnew, hlow⟩ := GruenSplitEqPolynomial.LowAt.new (F := Fr) hw scalingFactor
  rw [hstart] at hnew
  obtain rfl := Option.some.inj hnew
  obtain ⟨s', hbound, hs⟩ := hlow.bindAll (show ([] ++ rs).length ≤ w.length from hlt.le)
  rw [hrun] at hbound
  obtain rfl := Option.some.inj hbound
  rw [List.nil_append] at hs
  refine ⟨⟨fun h => haccumulate.mp h.accumulate, fun h => ?_⟩, ?_⟩
  · exact ⟨evalLinearProdAssign_eq hne, evalLinearProdNaiveAssign_eq hne, haccumulate.mpr h⟩
  · exact computeMlesProductSum_eq hs hlt hcurrent hhint hreads hmles
      fun k hpos hk => natCast_ne_zero_of_lt hpos (hk.trans husize)

/-- The form by canonical representatives. -/
def canonicalForm : MontgomeryForm where
  form a := (a * montgomeryR).val
  fromMontgomeryReduce x := (x : Fr) * montgomeryR⁻¹ * montgomeryR⁻¹
  cast_form _ := ZMod.natCast_zmod_val _
  reduce_eq _ := rfl

/-- Two factors, and the only round of a point with one coordinate. -/
theorem product_kernels_agree_iff_two :
    ∃ start s : GruenSplitEqPolynomial Fr Fr,
      GruenSplitEqPolynomial.newWithScaling [3] .lowToHigh .none = .some start ∧ start.bindAll [] = .some s ∧
      (KernelsAgree canonicalForm [(0, 1), (0, 1)] [0, 0] ↔
        [((0 : Fr), (1 : Fr)), (0, 1)].length ∈ ownKernel ∨ Vanishes [(0, 1), (0, 1)]) ∧
      ∃ p, computeMlesProductSum [.roundN [1, 2], .roundN [5, 4]]
          (roundSum 1 (coordinates Fr [(3 : Fr)]) (coordinates Fr ([] : List Fr)) [[1, 2], [5, 4]] 0 +
            roundSum 1 (coordinates Fr [(3 : Fr)]) (coordinates Fr ([] : List Fr)) [[1, 2], [5, 4]] 1) s =
          .some p ∧ p.coeffs.length = 4 ∧
        ∀ x, p.toPolynomial.eval x =
          roundSum 1 (coordinates Fr [(3 : Fr)]) (coordinates Fr ([] : List Fr)) [[1, 2], [5, 4]] x := by
  have hstart : GruenSplitEqPolynomial.newWithScaling [(3 : Fr)] .lowToHigh (.none : Option Fr) =
      .some ⟨1, 1, [3], [[1]], [[1]], .lowToHigh⟩ := rfl
  have hrun : GruenSplitEqPolynomial.bindAll (⟨1, 1, [3], [[1]], [[1]], .lowToHigh⟩ :
      GruenSplitEqPolynomial Fr Fr) [] = .some ⟨1, 1, [3], [[1]], [[1]], .lowToHigh⟩ := rfl
  have hcurrent : GruenSplitEqPolynomial.getCurrentW (⟨1, 1, [3], [[1]], [[1]], .lowToHigh⟩ :
      GruenSplitEqPolynomial Fr Fr) = .some 3 := rfl
  have hhint : (1 : Fr) - Challenge.into (3 : Fr) ≠ 0 := by decide
  exact ⟨_, _, hstart, hrun, product_kernels_agree_iff canonicalForm (by decide) rfl hstart hrun (by decide)
    hcurrent hhint (.cons ⟨rfl, fun _ _ => rfl⟩ (.cons ⟨rfl, fun _ _ => rfl⟩ .nil)) (by decide) (by decide)⟩

/-- Seventeen factors `X`, of a product that is one at one, into empty accumulators: what is added
is not the value. -/
theorem naive_accumulate_diverges :
    (evalLinearProdAccumulate canonicalForm (List.replicate 17 (0, 1)) (List.replicate 17 0)).map
        (reduceProductAccum canonicalForm) ≠
      List.zipWith (· + ·) ((List.replicate 17 0).map (reduceProductAccum canonicalForm))
        (grid (List.replicate 17 (0, 1))) := by
  intro h
  rcases (evalLinearProdAccumulate_exact_iff canonicalForm (by decide) (by decide)).mp h with hown | hvanish
  · exact absurd hown (by decide)
  · obtain ⟨p, hp, hconstant⟩ := hvanish.2
    rw [List.eq_of_mem_replicate hp] at hconstant
    exact zero_ne_one hconstant

end LightningJolt
