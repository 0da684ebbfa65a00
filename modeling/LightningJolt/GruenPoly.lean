/-
The round polynomials of the split equality polynomial, recovered from the claim
of the previous round and all but one of the values of the other factor.
-/
import LightningJolt.SplitEqTables
import LightningJolt.Interpolation

namespace LightningJolt

open Polynomial

variable {F C : Type} [JoltField F] [Challenge C F] [DecidableEq F]

namespace GruenSplitEqPolynomial

/-- Division, a panic at zero. -/
def divide (x y : F) : Option F := do .some (x * (← inverse y))

/-- `gruen_poly_deg_2`. -/
def gruenPolyDeg2 (s : GruenSplitEqPolynomial F C) (q0 previousClaim : F) : Option (UniPoly F) := do
  let eqEval1 := s.currentScalar * Challenge.into (← s.getCurrentW)
  let eqEval0 := s.currentScalar - eqEval1
  let eqM := eqEval1 - eqEval0
  let eqEval2 := eqEval1 + eqM
  let quadraticEval0 := eqEval0 * q0
  let quadraticEval1 := previousClaim - quadraticEval0
  let linearEval1 ← divide quadraticEval1 eqEval1
  let linearEval2 := linearEval1 + linearEval1 - q0
  UniPoly.fromEvals [quadraticEval0, quadraticEval1, eqEval2 * linearEval2]

/-- `gruen_poly_deg_3`. -/
def gruenPolyDeg3 (s : GruenSplitEqPolynomial F C) (qConstant qQuadraticCoeff s0PlusS1 : F) :
    Option (UniPoly F) := do
  let eqEval1 := s.currentScalar * Challenge.into (← s.getCurrentW)
  let eqEval0 := s.currentScalar - eqEval1
  let eqM := eqEval1 - eqEval0
  let eqEval2 := eqEval1 + eqM
  let eqEval3 := eqEval2 + eqM
  let cubicEval0 := eqEval0 * qConstant
  let cubicEval1 := s0PlusS1 - cubicEval0
  let quadraticEval1 ← divide cubicEval1 eqEval1
  let eTimes2 := qQuadraticCoeff + qQuadraticCoeff
  let quadraticEval2 := quadraticEval1 + quadraticEval1 - qConstant + eTimes2
  let quadraticEval3 := quadraticEval2 + quadraticEval1 - qConstant + eTimes2 + eTimes2
  UniPoly.fromEvals [cubicEval0, cubicEval1, eqEval2 * quadraticEval2, eqEval3 * quadraticEval3]

/-- The last loop of `gruen_poly_from_evals`: each coefficient goes to its own
place and to the next, where it is carried. -/
def mulLoop (lC0 lC1 carry : F) : List F → List F
  | [] => [carry]
  | q :: qs => (carry + q * lC0) :: mulLoop lC0 lC1 (q * lC1) qs

/-- `gruen_poly_from_evals`. -/
def gruenPolyFromEvals (s : GruenSplitEqPolynomial F C) (qEvals : List F) (s0PlusS1 : F) :
    Option (UniPoly F) := do
  let rRound : F := Challenge.into (← s.getCurrentW)
  let lAt0 := s.currentScalar * EqPolynomial.mle [0] [rRound]
  let lAt1 := s.currentScalar * EqPolynomial.mle [1] [rRound]
  let qAt0 ← divide (s0PlusS1 - lAt1 * (← qEvals.head?)) lAt0
  let q ← UniPoly.fromEvalsToom (qAt0 :: qEvals)
  .some ⟨mulLoop lAt0 (lAt1 - lAt0) 0 q.coeffs⟩

/-! ## The factors of a round -/

/-- The equality factor of the round, `l`, at the current coordinate. -/
noncomputable def linear (s : GruenSplitEqPolynomial F C) (current : F) : F[X] :=
  ofCoeffs [s.currentScalar * (1 - current), s.currentScalar * current - s.currentScalar * (1 - current)]

/-- The claim a round polynomial `l * q` is checked against. -/
noncomputable def roundClaim (l q : F[X]) : F := (l * q).eval 0 + (l * q).eval 1

omit [Challenge C F] [DecidableEq F] in
theorem eval_zero_linear (s : GruenSplitEqPolynomial F C) (current : F) :
    (s.linear current).eval 0 = s.currentScalar * (1 - current) := by
  rw [linear, eval_ofCoeffs]
  simp [horner]

omit [Challenge C F] [DecidableEq F] in
theorem eval_one_linear (s : GruenSplitEqPolynomial F C) (current : F) :
    (s.linear current).eval 1 = s.currentScalar * current := by
  rw [linear, eval_ofCoeffs]
  simp [horner]

theorem divide_eq {x y : F} (hy : y ≠ 0) : divide x y = .some (x / y) := by
  rw [divide, inverse, if_neg hy, div_eq_mul_inv]
  rfl

omit [DecidableEq F] in
theorem length_mulLoop (a m carry : F) (qs : List F) :
    (mulLoop a m carry qs).length = qs.length + 1 := by
  induction qs generalizing carry with
  | nil => rfl
  | cons q qs ih => rw [mulLoop, List.length_cons, ih, List.length_cons]

omit [DecidableEq F] in
theorem toPolynomial_mulLoop (a m carry : F) (qs : List F) :
    ofCoeffs (mulLoop a m carry qs) = Polynomial.C carry + ofCoeffs [a, m] * ofCoeffs qs := by
  induction qs generalizing carry with
  | nil => simp [mulLoop, ofCoeffs]
  | cons q qs ih =>
    rw [mulLoop, ofCoeffs, ih]
    simp only [ofCoeffs, C_add, C_mul]
    ring

omit [Challenge C F] in
/-- The value at one of the factor a claim leaves out. -/
theorem divide_claim (s : GruenSplitEqPolynomial F C) (current : F) (q : F[X])
    (hl : (s.linear current).eval 1 ≠ 0) :
    divide (roundClaim (s.linear current) q -
      (s.currentScalar - s.currentScalar * current) * q.eval 0) (s.currentScalar * current) =
      .some (q.eval 1) := by
  rw [eval_one_linear] at hl
  have hnumerator : roundClaim (s.linear current) q -
      (s.currentScalar - s.currentScalar * current) * q.eval 0 =
      s.currentScalar * current * q.eval 1 := by
    rw [roundClaim, eval_mul, eval_mul, eval_zero_linear, eval_one_linear]
    ring
  rw [divide_eq hl, hnumerator, mul_div_cancel_left₀ _ hl]

/-- **The quadratic round polynomial**, from the constant of the linear factor. -/
theorem gruenPolyDeg2_eq {s : GruenSplitEqPolynomial F C} {current : C}
    (hcurrent : s.getCurrentW = .some current) (c d : F)
    (hl : (s.linear (Challenge.into current)).eval 1 ≠ 0) :
    ∃ p, s.gruenPolyDeg2 c (roundClaim (s.linear (Challenge.into current)) (ofCoeffs [c, d])) =
        .some p ∧ p.coeffs.length = 3 ∧
      p.toPolynomial = s.linear (Challenge.into current) * ofCoeffs [c, d] := by
  have hdivide := divide_claim s (Challenge.into current) (ofCoeffs [c, d]) hl
  have hzero : (ofCoeffs [c, d]).eval 0 = c := by simp [ofCoeffs]
  have hone : (ofCoeffs [c, d]).eval 1 = c + d := by simp [ofCoeffs]
  rw [hzero, hone] at hdivide
  have hclaim : roundClaim (s.linear (Challenge.into current)) (ofCoeffs [c, d]) -
      (s.currentScalar - s.currentScalar * Challenge.into current) * c =
      s.currentScalar * Challenge.into current * (c + d) := by
    rw [roundClaim, eval_mul, eval_mul, eval_zero_linear, eval_one_linear, hzero, hone]
    ring
  rw [hclaim] at hdivide
  refine ⟨⟨mulLoop (s.currentScalar * (1 - Challenge.into current)) (s.currentScalar *
    Challenge.into current - s.currentScalar * (1 - Challenge.into current)) 0 [c, d]⟩, ?_, rfl, ?_⟩
  · unfold gruenPolyDeg2
    simp only [hcurrent, Option.bind_eq_bind, Option.bind_some, hdivide, hclaim, UniPoly.fromEvals,
      mulLoop]
    rw [← UniPoly.fromEvalsDegree2_eq]
    congr 2
    all_goals
      simp only [horner, List.foldr_cons, List.foldr_nil]
      ring
  · rw [UniPoly.toPolynomial, toPolynomial_mulLoop, map_zero, zero_add]
    rfl

/-- **The cubic round polynomial**, from the constant and the leading coefficient
of the quadratic factor. -/
theorem gruenPolyDeg3_eq {s : GruenSplitEqPolynomial F C} {current : C}
    (hcurrent : s.getCurrentW = .some current) (hthree : (3 : F) ≠ 0) (c d e : F)
    (hl : (s.linear (Challenge.into current)).eval 1 ≠ 0) :
    ∃ p, s.gruenPolyDeg3 c e (roundClaim (s.linear (Challenge.into current)) (ofCoeffs [c, d, e])) =
        .some p ∧ p.coeffs.length = 4 ∧
      p.toPolynomial = s.linear (Challenge.into current) * ofCoeffs [c, d, e] := by
  have hdivide := divide_claim s (Challenge.into current) (ofCoeffs [c, d, e]) hl
  have hzero : (ofCoeffs [c, d, e]).eval 0 = c := by simp [ofCoeffs]
  have hone : (ofCoeffs [c, d, e]).eval 1 = c + (d + e) := by simp [ofCoeffs]
  rw [hzero, hone] at hdivide
  have hclaim : roundClaim (s.linear (Challenge.into current)) (ofCoeffs [c, d, e]) -
      (s.currentScalar - s.currentScalar * Challenge.into current) * c =
      s.currentScalar * Challenge.into current * (c + (d + e)) := by
    rw [roundClaim, eval_mul, eval_mul, eval_zero_linear, eval_one_linear, hzero, hone]
    ring
  rw [hclaim] at hdivide
  refine ⟨⟨mulLoop (s.currentScalar * (1 - Challenge.into current)) (s.currentScalar *
    Challenge.into current - s.currentScalar * (1 - Challenge.into current)) 0 [c, d, e]⟩, ?_, rfl, ?_⟩
  · unfold gruenPolyDeg3
    simp only [hcurrent, Option.bind_eq_bind, Option.bind_some, hdivide, hclaim, UniPoly.fromEvals,
      mulLoop]
    rw [← UniPoly.fromEvalsDegree3_eq hthree]
    congr 2
    all_goals
      simp only [horner, List.foldr_cons, List.foldr_nil]
      ring
  · rw [UniPoly.toPolynomial, toPolynomial_mulLoop, map_zero, zero_add]
    rfl

/-- **The round polynomial of any degree**, from the values of the other factor
at one and on, and at infinity, where these are at least two. -/
theorem gruenPolyFromEvals_eq {s : GruenSplitEqPolynomial F C} {current : C}
    (hcurrent : s.getCurrentW = .some current) {cs : List F} (leading : F) (hlen : 2 ≤ cs.length)
    (hne : ∀ k, 0 < k → k < cs.length → (k : F) ≠ 0)
    (hl : (s.linear (Challenge.into current)).eval 0 ≠ 0) :
    ∃ p, s.gruenPolyFromEvals
        (((List.range (cs.length - 1)).map fun i : Nat => (ofCoeffs (cs ++ [leading])).eval ((i + 1 : Nat) : F)) ++
          [leading])
        (roundClaim (s.linear (Challenge.into current)) (ofCoeffs (cs ++ [leading]))) = .some p ∧
      p.coeffs.length = cs.length + 2 ∧
      p.toPolynomial = s.linear (Challenge.into current) * ofCoeffs (cs ++ [leading]) := by
  obtain ⟨n, hn⟩ : ∃ n, cs.length = n + 1 + 1 := ⟨cs.length - 2, by omega⟩
  have hmle0 : s.currentScalar * EqPolynomial.mle [0] [Challenge.into current] =
      (s.linear (Challenge.into current)).eval 0 := by
    rw [eval_zero_linear]
    simp [EqPolynomial.mle]
  have hmle1 : s.currentScalar * EqPolynomial.mle [1] [Challenge.into current] =
      (s.linear (Challenge.into current)).eval 1 := by
    rw [eval_one_linear]
    simp [EqPolynomial.mle]
  have hhead : (((List.range (cs.length - 1)).map fun i : Nat =>
      (ofCoeffs (cs ++ [leading])).eval ((i + 1 : Nat) : F)) ++ [leading]).head? =
      .some ((ofCoeffs (cs ++ [leading])).eval 1) := by
    rw [hn, Nat.add_sub_cancel, map_range_succ, List.cons_append, List.head?_cons]
    simp
  have hdivide : divide (roundClaim (s.linear (Challenge.into current)) (ofCoeffs (cs ++ [leading])) -
      (s.linear (Challenge.into current)).eval 1 * (ofCoeffs (cs ++ [leading])).eval 1)
      ((s.linear (Challenge.into current)).eval 0) =
      .some ((ofCoeffs (cs ++ [leading])).eval 0) := by
    rw [divide_eq hl, roundClaim, eval_mul, eval_mul, add_sub_cancel_right, mul_div_cancel_left₀ _ hl]
  have hpos : 0 < cs.length := by omega
  obtain ⟨q, hq, hqlen, hqpoly⟩ := UniPoly.fromEvalsToom_eq hpos leading hne
  have hevals : (ofCoeffs (cs ++ [leading])).eval 0 :: (((List.range (cs.length - 1)).map fun i : Nat =>
      (ofCoeffs (cs ++ [leading])).eval ((i + 1 : Nat) : F)) ++ [leading]) =
      ((List.range cs.length).map fun i : Nat => horner (i : F) (cs ++ [leading])) ++ [leading] := by
    rw [hn, Nat.add_sub_cancel, map_range_succ _ (n + 1), List.cons_append]
    simp only [eval_ofCoeffs, Nat.cast_zero]
  refine ⟨⟨mulLoop ((s.linear (Challenge.into current)).eval 0)
    ((s.linear (Challenge.into current)).eval 1 - (s.linear (Challenge.into current)).eval 0) 0
    q.coeffs⟩, ?_, ?_, ?_⟩
  · unfold gruenPolyFromEvals
    simp only [hcurrent, Option.bind_eq_bind, Option.bind_some, hmle0, hmle1, hhead, hdivide, hevals, hq]
  · rw [length_mulLoop, hqlen]
  · rw [UniPoly.toPolynomial, toPolynomial_mulLoop, map_zero, zero_add, eval_zero_linear, eval_one_linear,
      ← hqpoly]
    rfl

/-! ## The factorisation -/

/-- What a state of the split polynomial says about `scale * eq(w, ·)` with the
challenges `rs` bound. -/
structure Factorises (order : BindingOrder) (scale : F) (w rs : List C)
    (s : GruenSplitEqPolynomial F C) : Prop where
  merge : s.merge = .some (boundTable order scale (coordinates F w) (coordinates F rs))
  eInVec : s.eInVec ≠ []
  eOutVec : s.eOutVec ≠ []
  current : rs.length < w.length → ∃ current eOut eIn, s.getCurrentW = .some current ∧
    s.eOutCurrent = .some eOut ∧ s.eInCurrent = .some eIn ∧
    boundTable order scale (coordinates F w) (coordinates F rs) =
      (product order eOut eIn [1] (Challenge.into current)).map (s.currentScalar * ·)
  window : order = .lowToHigh → ∀ windowSize, 1 ≤ windowSize → windowSize ≤ w.length - rs.length →
    ∃ current eOut eIn eActive, s.getCurrentW = .some current ∧
      s.eOutInForWindow windowSize = .some (eOut, eIn) ∧
      s.eActiveForWindow windowSize = .some eActive ∧
      boundTable order scale (coordinates F w) (coordinates F rs) =
        (product order eOut eIn eActive (Challenge.into current)).map (s.currentScalar * ·)

/-- What the round polynomials of a state are. -/
structure RoundPolynomials (s : GruenSplitEqPolynomial F C) : Prop where
  deg2 : ∀ current, s.getCurrentW = .some current → ∀ c d : F,
    (s.linear (Challenge.into current)).eval 1 ≠ 0 →
    ∃ p, s.gruenPolyDeg2 c (roundClaim (s.linear (Challenge.into current)) (ofCoeffs [c, d])) =
      .some p ∧ p.coeffs.length = 3 ∧
      p.toPolynomial = s.linear (Challenge.into current) * ofCoeffs [c, d]
  deg3 : ∀ current, s.getCurrentW = .some current → (3 : F) ≠ 0 → ∀ c d e : F,
    (s.linear (Challenge.into current)).eval 1 ≠ 0 →
    ∃ p, s.gruenPolyDeg3 c e (roundClaim (s.linear (Challenge.into current)) (ofCoeffs [c, d, e])) =
      .some p ∧ p.coeffs.length = 4 ∧
      p.toPolynomial = s.linear (Challenge.into current) * ofCoeffs [c, d, e]
  fromEvals : ∀ current, s.getCurrentW = .some current → ∀ (cs : List F) (leading : F),
    2 ≤ cs.length → (∀ k, 0 < k → k < cs.length → (k : F) ≠ 0) →
    (s.linear (Challenge.into current)).eval 0 ≠ 0 →
    ∃ p, s.gruenPolyFromEvals
        (((List.range (cs.length - 1)).map fun i : Nat =>
          (ofCoeffs (cs ++ [leading])).eval ((i + 1 : Nat) : F)) ++ [leading])
        (roundClaim (s.linear (Challenge.into current)) (ofCoeffs (cs ++ [leading]))) = .some p ∧
      p.coeffs.length = cs.length + 2 ∧
      p.toPolynomial = s.linear (Challenge.into current) * ofCoeffs (cs ++ [leading])

theorem roundPolynomials (s : GruenSplitEqPolynomial F C) : s.RoundPolynomials where
  deg2 _ hcurrent c d hl := gruenPolyDeg2_eq hcurrent c d hl
  deg3 _ hcurrent hthree c d e hl := gruenPolyDeg3_eq hcurrent hthree c d e hl
  fromEvals _ hcurrent _ leading hlen hne hl := gruenPolyFromEvals_eq hcurrent leading hlen hne hl

omit [DecidableEq F] in
theorem LowAt.factorises {scale : F} {w rs : List C} {s : GruenSplitEqPolynomial F C}
    (h : LowAt scale w rs s) (hlen : rs.length ≤ w.length) : s.Factorises .lowToHigh scale w rs where
  merge := h.merge hlen
  eInVec := h.eInVec ▸ tableStack_ne_nil _ _
  eOutVec := h.eOutVec ▸ tableStack_ne_nil _ _
  current hlt := by
    have hcurrent := h.getCurrentW hlt
    obtain ⟨eOut, eIn, hout, hin, htable⟩ := h.current hcurrent hlt
    exact ⟨_, eOut, eIn, hcurrent, hout, hin, htable⟩
  window _ windowSize hpos hle := by
    have hlt : rs.length < w.length := by omega
    have hcurrent := h.getCurrentW hlt
    obtain ⟨eOut, eIn, eActive, hwindow, hactive, htable⟩ := h.window hcurrent hlt hpos hle
    exact ⟨_, eOut, eIn, eActive, hcurrent, hwindow, hactive, htable⟩

omit [DecidableEq F] in
theorem HighAt.factorises {scale : F} {w rs : List C} {s : GruenSplitEqPolynomial F C}
    (h : HighAt scale w rs s) (hlen : rs.length ≤ w.length) : s.Factorises .highToLow scale w rs where
  merge := h.merge hlen
  eInVec := h.eInVec ▸ tableStack_ne_nil _ _
  eOutVec := h.eOutVec ▸ tableStack_ne_nil _ _
  current hlt := by
    have hcurrent := h.getCurrentW hlt
    obtain ⟨eOut, eIn, hout, hin, htable⟩ := h.current hcurrent hlt
    exact ⟨_, eOut, eIn, hcurrent, hout, hin, htable⟩
  window horder := BindingOrder.noConfusion horder

/-- **The split equality polynomial keeps its factorisation**: in either order, from
any point and scaling, after any challenges up to the length of the point. -/
theorem keeps_factorisation {w : List C} (hw : w ≠ []) (order : BindingOrder)
    (scalingFactor : Option F) {rs : List C} (hlen : rs.length ≤ w.length) :
    ∃ start s, newWithScaling w order scalingFactor = .some start ∧ start.bindAll rs = .some s ∧
      s.Factorises order (scalingFactor.getD 1) w rs ∧ s.RoundPolynomials := by
  cases order with
  | lowToHigh =>
    obtain ⟨start, hnew, hstart⟩ := LowAt.new hw scalingFactor
    have hrounds : ([] ++ rs).length ≤ w.length := by simpa using hlen
    obtain ⟨s, hrun, hs⟩ := hstart.bindAll hrounds
    exact ⟨start, s, hnew, hrun, hs.factorises hlen, roundPolynomials s⟩
  | highToLow =>
    obtain ⟨start, hnew, hstart⟩ := HighAt.new hw scalingFactor
    have hrounds : ([] ++ rs).length ≤ w.length := by simpa using hlen
    obtain ⟨s, hrun, hs⟩ := hstart.bindAll hrounds
    exact ⟨start, s, hnew, hrun, hs.factorises hlen, roundPolynomials s⟩

/-- Three coordinates, two of them bound. -/
theorem keeps_factorisation_three :
    ∃ start s : GruenSplitEqPolynomial (ZMod 7) (ZMod 7),
      newWithScaling [2, 3, 4] .highToLow (.some 5) = .some start ∧ start.bindAll [6, 2] = .some s ∧
      s.Factorises .highToLow 5 [2, 3, 4] [6, 2] ∧ s.RoundPolynomials :=
  keeps_factorisation (by decide) .highToLow (.some 5) (by decide)

/-- From high to low there are no tables of a window; and of a linear factor
`1 + 2X` the only value given is the leading coefficient, read as the value at
one. -/
theorem no_window_highToLow :
    (∃ start : GruenSplitEqPolynomial (ZMod 7) (ZMod 7),
      newWithScaling [3] .highToLow .none = .some start ∧ start.eOutInForWindow 1 = .none) ∧
    ∃ start : GruenSplitEqPolynomial (ZMod 7) (ZMod 7),
      newWithScaling [3] .lowToHigh .none = .some start ∧
      start.gruenPolyFromEvals [2] (5 * 1 + 3 * 3) = .some ⟨[1, 4, 3]⟩ ∧
      mulLoop 5 (3 - 5) 0 [1, 2] = ([5, 1, 3] : List (ZMod 7)) :=
  ⟨⟨_, rfl, rfl⟩, _, rfl, by decide +kernel, by decide⟩

end GruenSplitEqPolynomial

end LightningJolt
