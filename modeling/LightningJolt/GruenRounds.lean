/-
A round of a sumcheck over a split equality polynomial whose lowest variable is bound first: the
weights of the fold, the cubic polynomial, and what becomes of it where the coefficients are scaled.
-/
import LightningJolt.EqBuilders
import LightningJolt.RaRounds

namespace LightningJolt

open Finset

variable {F C : Type} [JoltField F] [Challenge C F]

omit [Challenge C F] in
theorem eqMle_drop_one {w z : List F} {n : Nat} (hn : n < w.length) :
    eqMle (w.drop n) (1 :: z) = w[n] * eqMle (w.drop (n + 1)) z := by
  rw [List.drop_eq_getElem_cons hn, eqMle_cons, eqFactor]
  ring

variable [DecidableEq F]

/-- Two coefficients by the fold and the polynomial that they make. -/
def gruenRound (s : GruenSplitEqPolynomial F C) (values : Nat → Option (List F)) (previousClaim : F) :
    Option (UniPoly F) := do
  let coeffs ← s.parFoldOutInUnreduced 2 values
  s.gruenPolyDeg3 (← coeffs[0]?) (← coeffs[1]?) previousClaim

/-- The sum of a round. -/
def quadraticSum (w : List F) (c d e : Nat → F) (n : Nat) (z : List F) (x : F) : F :=
  ∑ g ∈ range (2 ^ n), eqMle w (bitsPoint n g ++ x :: z) * (c g + d g * x + e g * (x * x))

omit [DecidableEq F] in
open GruenSplitEqPolynomial in
/-- The weights of the fold make up the equality polynomial with the factor of the current variable. -/
theorem gruenFold_eq {w cs : List C} {s : GruenSplitEqPolynomial F C} (h : LowAt 1 w cs s) {n : Nat}
    (hn : n + 1 + cs.length = w.length) :
    ∃ (current : C) (W : Nat → F), s.getCurrentW = .some current ∧
      (s.linear (Challenge.into current)).eval 1 = eqMle ((coordinates F w).drop n) (1 :: (coordinates F cs).reverse) ∧
      (∀ x, ∀ g < 2 ^ n, eqMle (coordinates F w) (bitsPoint n g ++ x :: (coordinates F cs).reverse) =
        (s.linear (Challenge.into current)).eval x * W g) ∧
      ∀ (values : Nat → Option (List F)) (c e : Nat → F), (∀ g < 2 ^ n, values g = .some [c g, e g]) →
        s.parFoldOutInUnreduced 2 values =
          .some [∑ g ∈ range (2 ^ n), W g * c g, ∑ g ∈ range (2 ^ n), W g * e g] := by
  have hcurrent := h.getCurrentW (by omega)
  generalize hcur : w.get ⟨w.length - cs.length - 1, by omega⟩ = current at hcurrent
  obtain ⟨eOut, eIn, a, b, hout, hin, hlenOut, hlenIn, hab, hbound⟩ := h.boundTable_concat hcurrent (by omega)
  have hsize : eOut.length * eIn.length = 2 ^ n := by
    rw [hlenOut, hlenIn, ← pow_add]
    congr 1
    omega
  have hne : eOut ≠ [] := List.length_pos_iff.mp (hlenOut ▸ Nat.two_pow_pos a)
  refine ⟨current, fun g => (tensor eOut eIn).getD g 0, hcurrent, ?_, fun x g hg => ?_, fun values c e hvalues => ?_⟩
  · have hlt : n < (coordinates F w).length := by rw [length_coordinates]; omega
    have hcoordinate : (coordinates F w)[n] = Challenge.into current := by
      rw [← hcur, List.get_eq_getElem]
      simp only [coordinates, List.getElem_map]
      congr 2
      omega
    rw [eval_one_linear, eqMle_drop_one hlt, hcoordinate, h.currentScalar, one_mul,
      show w.length - cs.length = n + 1 by omega, mul_comm]
  · have hlt : g < (tensor eOut eIn).length := by rwa [length_tensor, hsize]
    have hfactor : (s.linear (Challenge.into current)).eval x =
        s.currentScalar * eqFactor (Challenge.into current) x := by
      rw [linear, eval_ofCoeffs, eqFactor]
      simp only [horner, List.foldr_cons, List.foldr_nil]
      ring
    rw [hfactor, ← boundTable_getD (by rw [length_coordinates, length_coordinates]; omega) hg, hbound x,
      List.getD_eq_getElem?_getD, List.getElem?_map, List.getElem?_eq_getElem hlt]
    simp only [List.getD_eq_getElem _ _ hlt]
    rfl
  · have hfold := parFoldOutInUnreduced_eq (d := 2) (f := fun g k => if k = 0 then c g else e g) hout hin hlenIn hne
      (fun g hg => hvalues g (by rwa [← hsize]))
    rw [hsize] at hfold
    exact hfold

omit [Challenge C F] [DecidableEq F] in
/-- The sum of a round is the factor of the current variable times a quadratic polynomial. -/
theorem quadraticSum_linear {w z : List F} {n : Nat} {W c d e : Nat → F} {l : F → F}
    (hweight : ∀ x, ∀ g < 2 ^ n, eqMle w (bitsPoint n g ++ x :: z) = l x * W g) (x : F) :
    quadraticSum w c d e n z x = l x * (∑ g ∈ range (2 ^ n), W g * c g + (∑ g ∈ range (2 ^ n), W g * d g) * x +
      (∑ g ∈ range (2 ^ n), W g * e g) * (x * x)) := by
  rw [quadraticSum, sum_mul, sum_mul, ← sum_add_distrib, ← sum_add_distrib, mul_sum]
  refine sum_congr rfl fun g hg => ?_
  rw [hweight x g (mem_range.mp hg)]
  ring

open GruenSplitEqPolynomial in
theorem gruenPolyDeg3_zero {s : GruenSplitEqPolynomial F C} {current : C} (hcurrent : s.getCurrentW = .some current)
    (hzero : (s.linear (Challenge.into current)).eval 1 = 0) (c e claim : F) :
    s.gruenPolyDeg3 c e claim = .none := by
  rw [eval_one_linear] at hzero
  unfold gruenPolyDeg3
  simp only [hcurrent, Option.bind_eq_bind, Option.bind_some, hzero, divide, inverse, if_true, Option.bind_none]

open GruenSplitEqPolynomial in
/-- The polynomial, whatever the claim: the linear coefficient of the quadratic factor makes it fit. -/
theorem gruenPolyDeg3_fits {s : GruenSplitEqPolynomial F C} {current : C} (hcurrent : s.getCurrentW = .some current)
    (hthree : (3 : F) ≠ 0) (hne : (s.linear (Challenge.into current)).eval 1 ≠ 0) {c d e claim : F}
    (hclaim : claim = (s.linear (Challenge.into current)).eval 0 * c +
      (s.linear (Challenge.into current)).eval 1 * (c + d + e)) :
    ∃ p, s.gruenPolyDeg3 c e claim = .some p ∧
      p.Is 3 fun x => (s.linear (Challenge.into current)).eval x * (c + d * x + e * (x * x)) := by
  obtain ⟨p, hp, hlen, hpoly⟩ := gruenPolyDeg3_eq hcurrent hthree c d e hne
  have hquadratic : ∀ x, (ofCoeffs [c, d, e]).eval x = c + d * x + e * (x * x) := fun x => by
    rw [eval_ofCoeffs]
    simp only [horner, List.foldr_cons, List.foldr_nil]
    ring
  have hround : roundClaim (s.linear (Challenge.into current)) (ofCoeffs [c, d, e]) = claim := by
    rw [roundClaim, Polynomial.eval_mul, Polynomial.eval_mul, hquadratic, hquadratic, hclaim]
    ring
  rw [hround] at hp
  refine ⟨p, hp, hlen, fun x => ?_⟩
  rw [← eval_ofCoeffs, ← UniPoly.toPolynomial, hpoly, Polynomial.eval_mul, hquadratic]

open GruenSplitEqPolynomial in
/-- **A round of a split equality polynomial** is that of the sum over its table, where the current
coordinate and the scalar are not zero, and panics elsewhere. -/
theorem gruenRound_eq {w cs : List C} {s : GruenSplitEqPolynomial F C} (h : LowAt 1 w cs s) {n : Nat}
    (hn : n + 1 + cs.length = w.length) (hthree : (3 : F) ≠ 0) {values : Nat → Option (List F)} {c d e : Nat → F}
    (hvalues : ∀ g < 2 ^ n, values g = .some [c g, e g]) {claim : F}
    (hclaim : claim = quadraticSum (coordinates F w) c d e n (coordinates F cs).reverse 0 +
      quadraticSum (coordinates F w) c d e n (coordinates F cs).reverse 1) :
    (eqMle ((coordinates F w).drop n) (1 :: (coordinates F cs).reverse) = 0 → gruenRound s values claim = .none) ∧
      (eqMle ((coordinates F w).drop n) (1 :: (coordinates F cs).reverse) ≠ 0 →
        ∃ p, gruenRound s values claim = .some p ∧
          p.Is 3 (quadraticSum (coordinates F w) c d e n (coordinates F cs).reverse)) := by
  obtain ⟨current, W, hcurrent, hone, hweight, hfold⟩ := gruenFold_eq h hn
  have hsum := fun x => quadraticSum_linear (c := c) (d := d) (e := e) hweight x
  have hrun : gruenRound s values claim = s.gruenPolyDeg3 (∑ g ∈ range (2 ^ n), W g * c g)
      (∑ g ∈ range (2 ^ n), W g * e g) claim := by
    rw [gruenRound, hfold values c e hvalues]
    rfl
  rw [hrun, ← hone]
  refine ⟨fun hzero => gruenPolyDeg3_zero hcurrent hzero _ _ _, fun hne => ?_⟩
  have hfits : claim = (s.linear (Challenge.into current)).eval 0 * ∑ g ∈ range (2 ^ n), W g * c g +
      (s.linear (Challenge.into current)).eval 1 * (∑ g ∈ range (2 ^ n), W g * c g + ∑ g ∈ range (2 ^ n), W g * d g +
        ∑ g ∈ range (2 ^ n), W g * e g) := by
    rw [hclaim, hsum, hsum]
    ring
  obtain ⟨p, hp, his⟩ := gruenPolyDeg3_fits hcurrent hthree hne hfits
  exact ⟨p, hp, his.length, fun x => (his.value x).trans (hsum x).symm⟩

/-! ## Scaled coefficients -/

omit [Challenge C F] [DecidableEq F] in
/-- A linear factor that is not zero at one is cancelled but for a root. -/
theorem eq_zero_of_linear_mul {l : F → F} {l0 m a b c : F} (hl : ∀ x, l x = l0 + m * x) (hone : l 1 ≠ 0)
    (hthree : (3 : F) ≠ 0) (h : ∀ x, l x * (a + b * x + c * (x * x)) = 0) : a = 0 ∧ c = 0 := by
  have htwo := JoltField.two_ne_zero (F := F)
  have h0 : l0 * a = 0 := by simpa [hl] using h 0
  have h1 : a + b + c = 0 := by simpa [hone] using h 1
  have hminus : (l0 - m) * (a - b + c) = 0 := by
    have := h (-1)
    rw [hl] at this
    linear_combination this
  have h2 : (l0 + 2 * m) * (a + 2 * b + 4 * c) = 0 := by
    have := h 2
    rw [hl] at this
    linear_combination this
  rw [hl, mul_one] at hone
  by_cases hzero : l0 = 0
  · rw [hzero, zero_add] at hone
    rw [hzero, zero_sub] at hminus
    rw [hzero, zero_add] at h2
    have hb : a - b + c = 0 := (mul_eq_zero.mp hminus).resolve_left (neg_ne_zero.mpr hone)
    have hfour : a + 2 * b + 4 * c = 0 := (mul_eq_zero.mp h2).resolve_left (mul_ne_zero htwo hone)
    have hb0 : b = 0 := (mul_eq_zero.mp (show 2 * b = 0 by linear_combination h1 - hb)).resolve_left htwo
    have hc0 : c = 0 := (mul_eq_zero.mp (show 3 * c = 0 by linear_combination hfour - h1 - hb0)).resolve_left hthree
    exact ⟨by linear_combination h1 - hb0 - hc0, hc0⟩
  · have ha : a = 0 := (mul_eq_zero.mp h0).resolve_left hzero
    refine ⟨ha, by_contra fun hc => ?_⟩
    have hb : b = -c := by linear_combination h1 - ha
    have hc2 : 2 * c ≠ 0 := mul_ne_zero htwo hc
    have hfirst : l0 - m = 0 := (mul_eq_zero.mp (show (l0 - m) * (2 * c) = 0 by
      rw [ha, hb] at hminus
      linear_combination hminus)).resolve_right hc2
    have hsecond : l0 + 2 * m = 0 := (mul_eq_zero.mp (show (l0 + 2 * m) * (2 * c) = 0 by
      rw [ha, hb] at h2
      linear_combination h2)).resolve_right hc2
    have hm : m = 0 := (mul_eq_zero.mp (show 3 * m = 0 by linear_combination hsecond - hfirst)).resolve_left hthree
    exact hzero (by linear_combination hfirst + hm)

/-- A round whose coefficients are scaled before the polynomial is made. -/
def gruenRoundScaled (s : GruenSplitEqPolynomial F C) (values : Nat → Option (List F)) (k previousClaim : F) :
    Option (UniPoly F) := do
  let coeffs ← s.parFoldOutInUnreduced 2 values
  s.gruenPolyDeg3 ((← coeffs[0]?) * k) ((← coeffs[1]?) * k) previousClaim

/-- A coefficient of a round, weighted at one. -/
def weightedAtOne (w : List F) (f : Nat → F) (n : Nat) (z : List F) : F :=
  ∑ g ∈ range (2 ^ n), eqMle w (bitsPoint n g ++ 1 :: z) * f g

open GruenSplitEqPolynomial in
/-- **A scaled round** is the scaled sum where the claim is scaled too. Where it is not, the polynomial
is that of the sum only where the scale is one or the coefficients vanish. -/
theorem gruenRoundScaled_eq {w cs : List C} {s : GruenSplitEqPolynomial F C} (h : LowAt 1 w cs s) {n : Nat}
    (hn : n + 1 + cs.length = w.length) (hthree : (3 : F) ≠ 0) {values : Nat → Option (List F)} {c d e : Nat → F}
    (hvalues : ∀ g < 2 ^ n, values g = .some [c g, e g]) (k j claim : F)
    (hclaim : claim = j * (quadraticSum (coordinates F w) c d e n (coordinates F cs).reverse 0 +
      quadraticSum (coordinates F w) c d e n (coordinates F cs).reverse 1)) :
    (eqMle ((coordinates F w).drop n) (1 :: (coordinates F cs).reverse) = 0 →
      gruenRoundScaled s values k claim = .none) ∧
    (eqMle ((coordinates F w).drop n) (1 :: (coordinates F cs).reverse) ≠ 0 →
      ∃ p, gruenRoundScaled s values k claim = .some p ∧ p.coeffs.length = 4 ∧
        ((∀ x, horner x p.coeffs = j * quadraticSum (coordinates F w) c d e n (coordinates F cs).reverse x) ↔
          k = j ∨ weightedAtOne (coordinates F w) c n (coordinates F cs).reverse = 0 ∧
            weightedAtOne (coordinates F w) e n (coordinates F cs).reverse = 0)) := by
  obtain ⟨current, W, hcurrent, hone, hweight, hfold⟩ := gruenFold_eq h hn
  have hsum := fun x => quadraticSum_linear (c := c) (d := d) (e := e) hweight x
  have hweighted : ∀ f : Nat → F, weightedAtOne (coordinates F w) f n (coordinates F cs).reverse =
      (s.linear (Challenge.into current)).eval 1 * ∑ g ∈ range (2 ^ n), W g * f g := fun f => by
    rw [weightedAtOne, mul_sum]
    refine sum_congr rfl fun g hg => ?_
    rw [hweight 1 g (mem_range.mp hg), mul_assoc]
  have hrun : gruenRoundScaled s values k claim = s.gruenPolyDeg3 ((∑ g ∈ range (2 ^ n), W g * c g) * k)
      ((∑ g ∈ range (2 ^ n), W g * e g) * k) claim := by
    rw [gruenRoundScaled, hfold values c e hvalues]
    rfl
  rw [hrun, ← hone, hweighted, hweighted]
  simp only [hsum] at hclaim ⊢
  generalize ∑ g ∈ range (2 ^ n), W g * c g = Q0 at *
  generalize ∑ g ∈ range (2 ^ n), W g * d g = Qd at *
  generalize ∑ g ∈ range (2 ^ n), W g * e g = Qe at *
  refine ⟨fun hzero => gruenPolyDeg3_zero hcurrent hzero _ _ _, fun hne => ?_⟩
  -- the linear coefficient that makes the scaled quadratic fit the claim
  obtain ⟨b, hb⟩ : ∃ b, claim = (s.linear (Challenge.into current)).eval 0 * (Q0 * k) +
      (s.linear (Challenge.into current)).eval 1 * (Q0 * k + b + Qe * k) := by
    refine ⟨(claim - (s.linear (Challenge.into current)).eval 0 * (Q0 * k)) /
      (s.linear (Challenge.into current)).eval 1 - Q0 * k - Qe * k, ?_⟩
    field_simp
    ring
  obtain ⟨p, hp, his⟩ := gruenPolyDeg3_fits hcurrent hthree hne hb
  refine ⟨p, hp, his.length, ?_⟩
  have hscaled : k = j ∨ (s.linear (Challenge.into current)).eval 1 * Q0 = 0 ∧
      (s.linear (Challenge.into current)).eval 1 * Qe = 0 ↔ (k - j) * Q0 = 0 ∧ (k - j) * Qe = 0 := by
    simp only [mul_eq_zero, hne, false_or, sub_eq_zero]
    tauto
  have hlinear : ∀ x, (s.linear (Challenge.into current)).eval x = (s.linear (Challenge.into current)).eval 0 +
      ((s.linear (Challenge.into current)).eval 1 - (s.linear (Challenge.into current)).eval 0) * x := fun x => by
    simp only [linear, eval_ofCoeffs, horner, List.foldr_cons, List.foldr_nil]
    ring
  rw [hscaled]
  simp only [his.value]
  constructor
  · intro heq
    have hdiff : ∀ x, (s.linear (Challenge.into current)).eval x *
        ((k - j) * Q0 + (b - j * Qd) * x + (k - j) * Qe * (x * x)) = 0 := fun x => by
      have := heq x
      linear_combination this
    exact eq_zero_of_linear_mul hlinear hne hthree hdiff
  · rintro ⟨h0, he⟩ x
    have hb0 : b - j * Qd = 0 := by
      have hsame : (s.linear (Challenge.into current)).eval 1 * (b - j * Qd) = 0 := by
        have := hb.symm.trans hclaim
        linear_combination this - ((s.linear (Challenge.into current)).eval 0 +
          (s.linear (Challenge.into current)).eval 1) * h0 - (s.linear (Challenge.into current)).eval 1 * he
      exact (mul_eq_zero.mp hsame).resolve_left hne
    linear_combination (s.linear (Challenge.into current)).eval x * (h0 + x * hb0 + x * x * he)

end LightningJolt
