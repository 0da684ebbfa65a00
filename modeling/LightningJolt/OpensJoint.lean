/-
Stage 8 opens the joint polynomial exactly when the streamed rows lie within
the trace, each advice factor, which is found by the values of coordinates, is
the selector of its block, and the no-ops of the missing cycles, which only
the lazy pass adds, vanish.
-/
import LightningJolt.RlcProducts
import LightningJolt.OnChainSumcheck

namespace LightningJolt

open Finset

section Factor

variable {F C : Type} [JoltField F] [Challenge C F] [DecidableEq C]

omit [Challenge C F] [DecidableEq C] in
/-- A product over the coordinates is one over the sub-point of a block and one over the others. -/
theorem prod_point (o : JointOpening C) (kind : AdviceKind) (f : C → F) :
    (o.point.map f).prod = ((o.advicePoint kind).map f).prod * ((o.outside kind).map f).prod := by
  have hperm : o.point.Perm o.coordinates := by
    cases hlayout : o.layout with
    | CycleMajor =>
      simp only [JointOpening.coordinates, matrixCoordinates, hlayout]
      exact (List.reverse_perm _).symm
    | AddressMajor =>
      simp only [JointOpening.coordinates, matrixCoordinates, hlayout]
      refine List.Perm.trans ?_ (List.reverse_perm _).symm
      have happend : (o.point.take o.logK ++ o.point.drop o.logK).Perm
          (o.point.drop o.logK ++ o.point.take o.logK) := List.perm_append_comm
      rwa [List.take_append_drop] at happend
  have hcols : o.coordinates.take o.sigma = o.coordinates.take (o.adviceCols kind) ++
      (o.coordinates.take o.sigma).drop (o.adviceCols kind) := by
    have htake := List.take_append_drop (o.adviceCols kind) (o.coordinates.take o.sigma)
    rw [List.take_take, Nat.min_eq_left (o.adviceCols_le kind)] at htake
    exact htake.symm
  have hsplit : (o.coordinates.map f).prod = ((o.coordinates.take o.sigma).map f).prod *
      ((o.coordinates.drop o.sigma).map f).prod := by
    rw [← List.prod_append, ← List.map_append, List.take_append_drop]
  have hrows : ((o.coordinates.drop o.sigma).map f).prod =
      (((o.coordinates.drop o.sigma).take (o.adviceRows kind)).map f).prod *
        (((o.coordinates.drop o.sigma).drop (o.adviceRows kind)).map f).prod := by
    rw [← List.prod_append, ← List.map_append, List.take_append_drop]
  have hpoint : ((o.advicePoint kind).map f).prod = ((o.coordinates.take (o.adviceCols kind)).map f).prod *
      (((o.coordinates.drop o.sigma).take (o.adviceRows kind)).map f).prod := by
    rw [JointOpening.advicePoint, topLeftPoint, ((List.reverse_perm _).map f).prod_eq, List.map_append,
      List.prod_append]
  rw [(hperm.map f).prod_eq, hsplit, hcols, hrows, hpoint, JointOpening.outside]
  simp only [List.map_append, List.prod_append]
  ring

theorem prod_filter (xs ys : List C) :
    (xs.map fun r => if r ∈ ys then 1 - (Challenge.into r : F) else 1).prod =
      zeroSelector (xs.filter (· ∈ ys)) := by
  induction xs with
  | nil => rfl
  | cons x xs ih =>
    rw [List.map_cons, List.prod_cons, ih, List.filter_cons]
    by_cases hx : x ∈ ys
    · rw [if_pos hx, if_pos (by simpa using hx), zeroSelector, zeroSelector, List.map_cons, List.prod_cons]
    · rw [if_neg hx, if_neg (by simpa using hx), one_mul]

variable (F) in
/-- The coordinates outside the block that have the value of a coordinate of its sub-point leave the
factor as it is: their selector is one, or another coordinate makes both factors zero. -/
def FactorFound (o : JointOpening C) (kind : AdviceKind) : Prop :=
  (∃ r ∈ o.outside kind, r ∉ o.advicePoint kind ∧ (Challenge.into r : F) = 1) ∨
    zeroSelector ((o.outside kind).filter (· ∈ o.advicePoint kind)) = (1 : F)

instance [DecidableEq F] (o : JointOpening C) (kind : AdviceKind) : Decidable (FactorFound F o kind) :=
  inferInstanceAs (Decidable (_ ∨ _))

/-- The factor is the selector of the block exactly then. -/
theorem factor_eq_iff (o : JointOpening C) (kind : AdviceKind) :
    (computeAdviceLagrangeFactor o.point (o.advicePoint kind) : F) = zeroSelector (o.outside kind) ↔
      FactorFound F o kind := by
  let found (r : C) : F := if r ∈ o.advicePoint kind then 1 else 1 - Challenge.into r
  have hfactor : (computeAdviceLagrangeFactor o.point (o.advicePoint kind) : F) =
      ((o.outside kind).map found).prod := by
    rw [computeAdviceLagrangeFactor, prod_point o kind, List.prod_eq_one, one_mul]
    intro x hx
    obtain ⟨r, hr, rfl⟩ := List.mem_map.mp hx
    exact if_pos hr
  have hselector : (zeroSelector (o.outside kind) : F) = ((o.outside kind).map found).prod *
      zeroSelector ((o.outside kind).filter (· ∈ o.advicePoint kind)) := by
    rw [← prod_filter, ← List.prod_map_mul, zeroSelector]
    congr 1
    refine List.map_congr_left fun r _ => ?_
    simp only [found]
    by_cases hr : r ∈ o.advicePoint kind
    · rw [if_pos hr, if_pos hr, one_mul]
    · rw [if_neg hr, if_neg hr, mul_one]
  have hzero : ((o.outside kind).map found).prod = 0 ↔
      ∃ r ∈ o.outside kind, r ∉ o.advicePoint kind ∧ (Challenge.into r : F) = 1 := by
    rw [List.prod_eq_zero_iff, List.mem_map]
    refine exists_congr fun r => and_congr_right fun _ => ?_
    simp only [found]
    by_cases hr : r ∈ o.advicePoint kind
    · rw [if_pos hr]
      exact ⟨fun h => (one_ne_zero h).elim, fun h => (h.1 hr).elim⟩
    · rw [if_neg hr, sub_eq_zero]
      exact ⟨fun h => ⟨hr, h.symm⟩, fun h => h.2.symm⟩
  rw [hfactor, hselector, eq_comm, mul_right_eq_self₀, FactorFound, ← hzero, or_comm]

end Factor

section Main

variable {F C : Type} [JoltField F] [Challenge C F] [DecidableEq F] [DecidableEq C]

/-- The rows that the products walk through lie within the trace (or the cycles of a row fill it). -/
def RowsAtCycle (o : JointOpening C) : Prop :=
  match o.layout with
  | .CycleMajor => o.sigma ≤ o.logT
  | .AddressMajor => o.logK ≤ o.sigma

/-- The joint claim is the evaluation of the matrix, and the products are those of the matrix: for
every trace of the given length and all advice. -/
structure OpensJoint (o : JointOpening C) (gamma : F) : Prop where
  claim : ∀ (w : JointWitness F o) (claims : CommittedPolynomial → F),
    (∀ poly ∈ o.polynomials, claims poly = w.claim poly) → o.jointClaim claims gamma = w.matrixEval gamma
  materialized : o.layout = .CycleMajor → ∀ w : JointWitness F o,
    w.materializedVectorMatrixProduct gamma (JointWitness.leftVec o) =
      .some (w.matrixProduct gamma (JointWitness.leftVec o))
  streamed : o.layout = .CycleMajor → ∀ w : JointWitness F o,
    w.lazyVectorMatrixProduct gamma (JointWitness.leftVec o) =
      .some (w.matrixProduct gamma (JointWitness.leftVec o))
  addressMajor : o.layout = .AddressMajor → ∀ w : JointWitness F o,
    w.addressMajorVectorMatrixProduct gamma (JointWitness.leftVec o) =
      .some (w.matrixProduct gamma (JointWitness.leftVec o))

omit [JoltField F] [Challenge C F] [DecidableEq F] [DecidableEq C] in
/-- The advice stands behind the first polynomial. -/
theorem idxOf_advice_ne_zero (o : JointOpening C) (kind : AdviceKind) :
    o.polynomials.idxOf kind.polynomial ≠ 0 := by
  have hne : (CommittedPolynomial.RamInc == kind.polynomial) = false := by cases kind <;> rfl
  rw [JointOpening.polynomials]
  simp [List.idxOf_cons, hne]

omit [Challenge C F] [DecidableEq F] [DecidableEq C] in
theorem coeff_advice_eq_zero_iff (o : JointOpening C) (gamma : F) (kind : AdviceKind) :
    o.coeff gamma kind.polynomial = 0 ↔ gamma = 0 := pow_eq_zero_iff (idxOf_advice_ne_zero o kind)

/-! ## The condition is enough -/

omit [DecidableEq F] in
theorem jointClaim_eq_matrixEval {o : JointOpening C} {gamma : F}
    (hfound : gamma = 0 ∨ ∀ kind ∈ o.advice, FactorFound F o kind) (w : JointWitness F o)
    {claims : CommittedPolynomial → F} (hclaims : ∀ poly ∈ o.polynomials, claims poly = w.claim poly) :
    o.jointClaim claims gamma = w.matrixEval gamma := by
  have hadvice : w.advicePart gamma (fun kind => computeAdviceLagrangeFactor o.point (o.advicePoint kind)) =
      w.advicePart gamma fun kind => zeroSelector (o.outside kind) := by
    rw [JointWitness.advicePart, JointWitness.advicePart]
    congr 1
    refine List.map_congr_left fun kind hkind => ?_
    obtain hzero | hfound := hfound
    · rw [(coeff_advice_eq_zero_iff o gamma kind).mpr hzero, zero_mul, zero_mul]
    · rw [(factor_eq_iff o kind).mpr (hfound kind hkind)]
  rw [w.jointClaim_eq gamma hclaims, w.matrixEval_eq, hadvice]

/-! ## It is necessary -/

/-- No-ops, and one advice polynomial, of ones. -/
def oneAdvice (F : Type) [JoltField F] (o : JointOpening C) (kind : AdviceKind) : JointWitness F o where
  trace := List.replicate o.traceLen .noOp
  advicePoly kind' _ := if kind' = kind then 1 else 0
  length_trace := List.length_replicate

omit [DecidableEq F] [DecidableEq C] in
theorem length_advicePoint (o : JointOpening C) (kind : AdviceKind) :
    (o.advicePoint kind).length = o.adviceRows kind + o.adviceCols kind := by
  have hlen := o.length_coordinates
  have hcols := o.adviceCols_le kind
  have hrows := o.adviceRows_le kind
  rw [JointOpening.advicePoint, topLeftPoint, List.length_reverse, List.length_append, List.length_take,
    List.length_take, List.length_drop]
  omega

omit [DecidableEq F] [DecidableEq C] in
theorem adviceClaim_oneAdvice (o : JointOpening C) (kind kind' : AdviceKind) :
    (oneAdvice F o kind).adviceClaim kind' = if kind' = kind then 1 else 0 := by
  have hsum := sum_eqAt (intoPoint (o.advicePoint kind') : List F)
  rw [length_intoPoint, length_advicePoint] at hsum
  rw [JointWitness.adviceClaim]
  simp only [oneAdvice]
  rw [← sum_mul, hsum, one_mul]

omit [DecidableEq F] [DecidableEq C] in
theorem advicePart_oneAdvice {o : JointOpening C} (gamma : F) {kind : AdviceKind} (h : kind ∈ o.advice)
    (factor : AdviceKind → F) :
    (oneAdvice F o kind).advicePart gamma factor = o.coeff gamma kind.polynomial * factor kind := by
  have hsome : (o.adviceVars kind).isSome = true := (List.mem_filter.mp h).2
  rw [JointWitness.advicePart, JointOpening.advice]
  simp only [adviceClaim_oneAdvice]
  cases kind with
  | Trusted => cases hother : (o.adviceVars .Untrusted).isSome <;> simp [hsome, hother]
  | Untrusted => cases hother : (o.adviceVars .Trusted).isSome <;> simp [hsome, hother]

namespace OpensJoint

variable {o : JointOpening C} {gamma : F}

theorem factorFound (h : OpensJoint o gamma) :
    gamma = 0 ∨ ∀ kind ∈ o.advice, FactorFound F o kind := by
  by_cases hgamma : gamma = 0
  · exact .inl hgamma
  · refine .inr fun kind hkind => ?_
    have hclaim := h.claim (oneAdvice F o kind) (oneAdvice F o kind).claim fun _ _ => rfl
    rw [JointWitness.jointClaim_eq _ gamma fun _ _ => rfl, JointWitness.matrixEval_eq] at hclaim
    have hfactor := add_left_cancel hclaim
    rw [advicePart_oneAdvice gamma hkind, advicePart_oneAdvice gamma hkind] at hfactor
    have hcoeff : o.coeff gamma kind.polynomial ≠ 0 :=
      fun h => hgamma ((coeff_advice_eq_zero_iff o gamma kind).mp h)
    exact (factor_eq_iff o kind).mp (mul_left_cancel₀ hcoeff hfactor)

theorem rowsAtCycle (h : OpensJoint o gamma) : RowsAtCycle o := by
  let w : JointWitness F o := oneAdvice F o .Trusted
  rw [RowsAtCycle]
  cases hlayout : o.layout with
  | CycleMajor =>
    by_contra hlt
    have hproduct := h.materialized hlayout w
    rw [w.materialized_panics gamma _ (Nat.lt_of_not_le hlt)] at hproduct
    cases hproduct
  | AddressMajor =>
    by_contra hlt
    have hproduct := h.addressMajor hlayout w
    rw [w.addressMajor_panics gamma _ (Nat.lt_of_not_le hlt)] at hproduct
    cases hproduct

theorem missingVanish (h : OpensJoint o gamma) : JointWitness.MissingVanish o gamma := by
  let w : JointWitness F o := oneAdvice F o .Trusted
  have hrows := h.rowsAtCycle
  rw [← w.givenProduct_eq_iff gamma]
  rw [RowsAtCycle] at hrows
  cases hlayout : o.layout with
  | CycleMajor =>
    have hproduct := h.materialized hlayout w
    rw [hlayout] at hrows
    rw [w.materialized_eq gamma hlayout hrows] at hproduct
    exact Option.some.inj hproduct
  | AddressMajor =>
    have hproduct := h.addressMajor hlayout w
    rw [hlayout] at hrows
    rw [w.addressMajor_eq gamma hlayout hrows] at hproduct
    exact Option.some.inj hproduct

end OpensJoint

omit [DecidableEq F] [DecidableEq C] in
/-- No cycle is missing from a trace that is padded. -/
theorem missingVanish_of_padded {o : JointOpening C} (gamma : F) (h : o.traceLen = 2 ^ o.logT) :
    JointWitness.MissingVanish o gamma := by
  refine .inr fun col hcol => ?_
  rw [JointWitness.missingWeight]
  refine sum_eq_zero fun row hrow => ?_
  have hindex : row * 2 ^ o.sigma + col < 2 ^ o.logT * 2 ^ o.logK := by
    rw [Nat.mul_comm (2 ^ o.logT), ← o.two_pow_nu_mul]
    exact split_lt (mem_range.mp hrow) hcol
  have hcycle : (o.layout.indexToAddressCycle (row * 2 ^ o.sigma + col) (2 ^ o.logK) (2 ^ o.logT)).2 <
      2 ^ o.logT := by
    cases o.layout with
    | CycleMajor => exact Nat.mod_lt _ (Nat.two_pow_pos _)
    | AddressMajor => exact (Nat.div_lt_iff_lt_mul (Nat.two_pow_pos _)).mpr hindex
  have hmissing (address : Nat) : ¬ (address = 0 ∧ o.traceLen ≤
      (o.layout.indexToAddressCycle (row * 2 ^ o.sigma + col) (2 ^ o.logK) (2 ^ o.logT)).2) := by
    rw [h]
    exact fun hle => Nat.not_lt.mpr hle.2 hcycle
  simp only [if_neg (hmissing _), mul_zero]

end Main

/-! ## Coinciding coordinates and a missing cycle -/

/-- Advice of four words under a trace of 256 cycles, at a point whose coordinates are all three. -/
def coincidingOpening : JointOpening Fr where
  params := ⟨4, 16, 10, 10⟩
  logT := 8
  traceLen := 256
  layout := .CycleMajor
  point := List.replicate 12 3
  adviceVars
    | .Trusted => .some 2
    | .Untrusted => .none
  traceLen_le := Nat.le_refl _
  length_point := rfl
  cols_fit kind vars h := by
    cases kind with
    | Trusted =>
      cases h
      decide
    | Untrusted => cases h
  rows_fit kind vars h := by
    cases kind with
    | Trusted =>
      cases h
      decide
    | Untrusted => cases h

/-- No advice, at the same point, and a trace whose last cycle is missing. -/
def shortOpening : JointOpening Fr where
  params := ⟨4, 16, 10, 10⟩
  logT := 8
  traceLen := 255
  layout := .CycleMajor
  point := List.replicate 12 3
  adviceVars _ := .none
  traceLen_le := by decide
  length_point := rfl
  cols_fit _ _ h := by cases h
  rows_fit _ _ h := by cases h

end LightningJolt
