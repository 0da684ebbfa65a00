/-
What a verdict of the Dory verifier means: the equations that the one pairing check of the
transparent mode stands for, what the zero-knowledge mode leaves unchecked, and where the verifier
stops without a verdict.
-/
import LightningJolt.DoryCompleteness
import Mathlib.LinearAlgebra.Vandermonde

namespace LightningJolt.Dory

/-! ## Polynomials in a scalar -/

section Roots

variable {F M : Type} [Field F] [AddCommGroup M] [Module F M]

/-- **A polynomial with as many roots as coefficients is zero**, its coefficients in any module. -/
theorem coefficients_eq_zero {n : Nat} {roots : Fin n → F} (hroots : roots.Injective) {a : Fin n → M}
    (h : ∀ j, ∑ i : Fin n, roots j ^ (i : Nat) • a i = 0) : a = 0 := by
  have hdet : IsUnit (Matrix.vandermonde roots).det := (Matrix.det_vandermonde_ne_zero_iff.mpr hroots).isUnit
  have hinv : (Matrix.vandermonde roots)⁻¹ * Matrix.vandermonde roots = 1 := Matrix.nonsing_inv_mul _ hdet
  funext k
  have hcombine : ∑ j, (Matrix.vandermonde roots)⁻¹ k j • ∑ i : Fin n, roots j ^ (i : Nat) • a i = a k := by
    simp only [Finset.smul_sum, smul_smul]
    rw [Finset.sum_comm]
    simp only [← Finset.sum_smul]
    have hentry (i : Fin n) : ∑ j, (Matrix.vandermonde roots)⁻¹ k j * roots j ^ (i : Nat) =
        (1 : Matrix (Fin n) (Fin n) F) k i := by
      rw [← hinv, Matrix.mul_apply]
      rfl
    simp only [hentry, Matrix.one_apply, ite_smul, one_smul, zero_smul, Finset.sum_ite_eq, Finset.mem_univ, if_true]
  simpa [h] using hcombine.symm

end Roots

variable {S F G1 G2 GT : Type} [Field F] [DecidableEq F] [AddCommGroup G1] [Module F G1] [AddCommGroup G2]
  [Module F G2] [AddCommGroup GT] [Module F GT]

/-! ## The transparent check -/

section Transparent

variable [DecidableEq GT] (pair : G1 →ₗ[F] G2 →ₗ[F] GT) (setup : VerifierSetup G1 G2 GT)
  (st : DoryVerifierState F G1 G2 GT) (msg : ScalarProductMessage G1 G2)

namespace DoryVerifierState

/-- The fold of the scalars into the values and the scalar product equation on them, as the protocol
states them before they are batched. -/
def FinalEquation (chi0 : GT) (gamma d : F) : Prop :=
  let c' := st.c + (st.s1Acc * st.s2Acc) • setup.ht + gamma • pair setup.h1 st.e2 + gamma⁻¹ • pair st.e1 setup.h2
  let d1' := st.d1 + pair setup.h1 ((st.s1Acc * gamma) • setup.g2First)
  let d2' := st.d2 + pair ((st.s2Acc * gamma⁻¹) • setup.g1First) setup.h2
  pair (msg.e1 + d • setup.g1First) (msg.e2 + d⁻¹ • setup.g2First) = c' + chi0 + d • d2' + d⁻¹ • d1'

/-- The parts of the batched check, by their powers of the last challenge from the inverse on. -/
def defects (chi0 : GT) (gamma : F) : Fin 4 → GT :=
  ![pair msg.e1 setup.g2First - (gamma * st.s1Acc) • pair setup.h1 setup.g2First - st.d1,
    pair msg.e1 msg.e2 + pair setup.g1First setup.g2First - gamma • pair setup.h1 st.e2 -
      gamma⁻¹ • pair st.e1 setup.h2 - st.c - (st.s1Acc * st.s2Acc) • setup.ht - chi0,
    pair setup.g1First msg.e2 - (gamma⁻¹ * st.s2Acc) • pair setup.g1First setup.h2 - st.d2,
    pair st.e1Init setup.g2First - st.d2Init]

variable {pair setup st msg} {chi0 : GT} {gamma d : F}

omit [DecidableEq F] [DecidableEq GT] in
theorem finalEquation_iff (hd : d ≠ 0) :
    FinalEquation pair setup st msg chi0 gamma d ↔
      defects pair setup st msg chi0 gamma 0 + d • defects pair setup st msg chi0 gamma 1 +
        d ^ 2 • defects pair setup st msg chi0 gamma 2 = 0 := by
  have hscale : defects pair setup st msg chi0 gamma 0 + d • defects pair setup st msg chi0 gamma 1 +
      d ^ 2 • defects pair setup st msg chi0 gamma 2 =
        d • (pair (msg.e1 + d • setup.g1First) (msg.e2 + d⁻¹ • setup.g2First) -
          (st.c + (st.s1Acc * st.s2Acc) • setup.ht + gamma • pair setup.h1 st.e2 +
            gamma⁻¹ • pair st.e1 setup.h2 + chi0 +
            d • (st.d2 + pair ((st.s2Acc * gamma⁻¹) • setup.g1First) setup.h2) +
            d⁻¹ • (st.d1 + pair setup.h1 ((st.s1Acc * gamma) • setup.g2First)))) := by
    simp only [defects, Matrix.cons_val, map_add, map_smul, LinearMap.add_apply, LinearMap.smul_apply]
    match_scalars <;> field_simp
  rw [hscale, smul_eq_zero_iff_right hd, sub_eq_zero]
  rfl

/-- **The batched check** at one challenge: a cubic in it, times its inverse. -/
theorem verifyFinal_iff (hchi : setup.chi[0]? = .some chi0) (hgamma : gamma ≠ 0) (hd : d ≠ 0) :
    st.verifyFinal pair setup msg gamma d .none = .ok () ↔
      ∑ i : Fin 4, d ^ (i : Nat) • defects pair setup st msg chi0 gamma i = 0 := by
  simp only [verifyFinal, hchi, inv_of_ne hd, inv_of_ne hgamma, Outcome.okOr_some, Outcome.ofOption_some,
    Outcome.ok_bind, multiPair, List.length_cons, List.length_nil, if_true, Outcome.check_eq_ok]
  have hscale : ∑ i : Fin 4, d ^ (i : Nat) • defects pair setup st msg chi0 gamma i =
      d • (dot pair [msg.e1 + d • setup.g1First, setup.h1, (-gamma⁻¹) • (st.e1 + (d * st.s2Acc) • setup.g1First),
          (d * d) • st.e1Init]
        [msg.e2 + d⁻¹ • setup.g2First, (-gamma) • (st.e2 + (d⁻¹ * st.s1Acc) • setup.g2First), setup.h2,
          setup.g2First] -
        (st.c + (st.s1Acc * st.s2Acc) • setup.ht + chi0 + d • st.d2 + d⁻¹ • st.d1 + (d * d) • st.d2Init)) := by
    simp only [defects, Fin.sum_univ_four, Matrix.cons_val, dot_cons, dot_nil_left, map_add, map_smul,
      LinearMap.add_apply, LinearMap.smul_apply]
    match_scalars <;> simp <;> field_simp
  rw [hscale, smul_eq_zero_iff_right hd, sub_eq_zero]

/-- **The batched check is the equations it batches.** Passing at four distinct challenges, the check
holds the scalar product equation at every challenge and the equation of the first message. -/
theorem verifyFinal_batches (hchi : setup.chi[0]? = .some chi0) (hgamma : gamma ≠ 0) {ds : Fin 4 → F}
    (hds : ds.Injective) (hne : ∀ i, ds i ≠ 0) :
    (∀ i, st.verifyFinal pair setup msg gamma (ds i) .none = .ok ()) ↔
      (∀ d, d ≠ 0 → FinalEquation pair setup st msg chi0 gamma d) ∧ st.d2Init = pair st.e1Init setup.g2First := by
  constructor
  · intro h
    have hzero := coefficients_eq_zero hds fun i => (verifyFinal_iff hchi hgamma (hne i)).mp (h i)
    refine ⟨fun d hd => (finalEquation_iff hd).mpr ?_, ?_⟩
    · simp [hzero]
    · have hlast := congrFun hzero 3
      simp only [defects, Matrix.cons_val, Pi.zero_apply, sub_eq_zero] at hlast
      exact hlast.symm
  · rintro ⟨hfinal, hvmv⟩ i
    have hlast : defects pair setup st msg chi0 gamma 3 = 0 := by simp [defects, hvmv]
    rw [verifyFinal_iff hchi hgamma (hne i), Fin.sum_univ_four, hlast, smul_zero, add_zero]
    simpa using (finalEquation_iff (hne i)).mp (hfinal _ (hne i))

theorem verifyFinal_batches_one :
    let pair := LinearMap.mul ℚ ℚ
    let setup : VerifierSetup ℚ ℚ ℚ :=
      { delta1l := [0], delta1r := [0], delta2l := [0], delta2r := [0], chi := [2], g1First := 1, g2First := 2, h1 := 3
        h2 := 5, ht := 15, maxLogN := 0 }
    let st := DoryVerifierState.new (98 : ℚ) 14 14 (7 : ℚ) (14 : ℚ) [] [] 0
    let msg : ScalarProductMessage ℚ ℚ := { e1 := 10, e2 := 19 }
    (∀ d, d ≠ 0 → FinalEquation pair setup st msg 2 1 d) ∧ st.d2Init = pair st.e1Init setup.g2First := by
  intro pair setup st msg
  have hds : Function.Injective fun i : Fin 4 => (i : ℚ) + 1 := fun i j h => by
    simpa [Fin.ext_iff] using h
  have hpass (i : Fin 4) : st.verifyFinal pair setup msg 1 ((i : ℚ) + 1) .none = .ok () := by
    fin_cases i <;> decide +kernel
  exact (verifyFinal_batches rfl one_ne_zero hds fun i => by positivity).mp hpass

end DoryVerifierState

end Transparent

/-! ## The zero-knowledge check -/

/-- Outcomes of one kind, with related results or the same error. -/
inductive Outcome.Rel {α β : Type} (R : α → β → Prop) : Outcome α → Outcome β → Prop
  | ok {a : α} {b : β} (h : R a b) : Outcome.Rel R (.ok a) (.ok b)
  | error (e : DoryError) : Outcome.Rel R (.error e) (.error e)
  | panic : Outcome.Rel R .panic .panic

namespace Outcome.Rel

variable {α β γ δ : Type} {R : α → β → Prop} {Q : γ → δ → Prop}

theorem bind {x : Outcome α} {y : Outcome β} (hxy : Outcome.Rel R x y) {f : α → Outcome γ} {g : β → Outcome δ}
    (hfg : ∀ a b, R a b → Outcome.Rel Q (f a) (g b)) : Outcome.Rel Q (x >>= f) (y >>= g) := by
  cases hxy with
  | ok h => exact hfg _ _ h
  | error e => exact .error e
  | panic => exact .panic

theorem bind_same_of (x : Outcome α) {f : α → Outcome γ} {g : α → Outcome δ}
    (hfg : ∀ a, x = .ok a → Outcome.Rel Q (f a) (g a)) : Outcome.Rel Q (x >>= f) (x >>= g) := by
  cases x with
  | ok a => exact hfg a rfl
  | error e => exact .error e
  | panic => exact .panic

theorem bind_same (x : Outcome α) {f : α → Outcome γ} {g : α → Outcome δ} (hfg : ∀ a, Outcome.Rel Q (f a) (g a)) :
    Outcome.Rel Q (x >>= f) (x >>= g) := bind_same_of x fun a _ => hfg a

theorem ofOption {x : Option α} {y : Option β} (h : x = .none ↔ y = .none) :
    Outcome.Rel (fun _ _ => True) (Outcome.ofOption x) (Outcome.ofOption y) := by
  cases x <;> cases y
  · exact .panic
  · simp at h
  · simp at h
  · exact .ok trivial

theorem sliceTo {xs : List α} {ys : List β} (h : xs.length = ys.length) (n : Nat) :
    Outcome.Rel (fun as bs => as.length = bs.length) (sliceTo xs n) (sliceTo ys n) := by
  rw [Dory.sliceTo, Dory.sliceTo, h]
  split
  · exact .ok (by simp [h])
  · exact .panic

theorem slice {xs : List α} {ys : List β} (h : xs.length = ys.length) (m n : Nat) :
    Outcome.Rel (fun as bs => as.length = bs.length) (slice xs m n) (slice ys m n) := by
  rw [Dory.slice, Dory.slice, h]
  split
  · exact .ok (by simp [h])
  · exact .panic

theorem eq {x y : Outcome α} (h : Outcome.Rel (· = ·) x y) : x = y := by
  cases h with
  | ok h => rw [h]
  | error e => rfl
  | panic => rfl

end Outcome.Rel

namespace DoryVerifierState

/-- Two states that differ in what the zero-knowledge check does not read. -/
structure SameView (st st' : DoryVerifierState F G1 G2 GT) : Prop where
  c_eq : st.c = st'.c
  d1_eq : st.d1 = st'.d1
  d2_eq : st.d2 = st'.d2
  numRounds_eq : st.numRounds = st'.numRounds
  length_s1Coords : st.s1Coords.length = st'.s1Coords.length
  length_s2Coords : st.s2Coords.length = st'.s2Coords.length

variable {st st' : DoryVerifierState F G1 G2 GT}

theorem SameView.processRound (h : SameView st st') (setup : VerifierSetup G1 G2 GT)
    (first : FirstReduceMessage G1 G2 GT) (second : SecondReduceMessage G1 G2 GT) (alpha beta : F) :
    Outcome.Rel SameView (st.processRound setup first second alpha beta)
      (st'.processRound setup first second alpha beta) := by
  obtain ⟨hc, hd1, hd2, hrounds, hs1, hs2⟩ := h
  have hcoord {xs ys : List F} (i : Nat) (hlen : xs.length = ys.length) : xs[i]? = .none ↔ ys[i]? = .none := by
    simp [hlen]
  rw [DoryVerifierState.processRound, DoryVerifierState.processRound, hrounds]
  refine .bind_same _ fun _ => .bind_same _ fun alphaInv => .bind_same _ fun betaInv => .bind_same _ fun chiR => ?_
  refine .bind_same _ fun delta1lR => .bind_same _ fun delta1rR => .bind_same _ fun delta2lR => ?_
  refine .bind_same _ fun delta2rR => ?_
  refine .bind (.ofOption (hcoord _ hs1)) fun _ _ _ => ?_
  refine .bind (.ofOption (hcoord _ hs2)) fun _ _ _ => ?_
  exact .ok ⟨by simp [hc, hd1, hd2], rfl, rfl, rfl, hs1, hs2⟩

theorem SameView.verifyFinal_zk [DecidableEq GT] (h : SameView st st') (pair : G1 →ₗ[F] G2 →ₗ[F] GT)
    (setup : VerifierSetup G1 G2 GT) (msg msg' : ScalarProductMessage G1 G2) (gamma gamma' d : F)
    (zkData : ScalarProductProof F G1 G2 GT × F) :
    st.verifyFinal pair setup msg gamma d (.some zkData) = st'.verifyFinal pair setup msg' gamma' d (.some zkData) := by
  simp only [verifyFinal, h.c_eq, h.d1_eq, h.d2_eq]

end DoryVerifierState

section ZeroKnowledge

variable (tr : Transcript S F G1 G2 GT) (π : BuildProfile) (pair : G1 →ₗ[F] G2 →ₗ[F] GT)

theorem verifyRounds_sameView (setup : VerifierSetup G1 G2 GT) (firsts : List (FirstReduceMessage G1 G2 GT))
    (seconds : List (SecondReduceMessage G1 G2 GT)) {st st' : DoryVerifierState F G1 G2 GT} (t : S)
    (h : st.SameView st') :
    Outcome.Rel (fun r r' => r.1.SameView r'.1 ∧ r.2 = r'.2) (verifyRounds tr setup firsts seconds st t)
      (verifyRounds tr setup firsts seconds st' t) := by
  induction firsts generalizing seconds st st' t with
  | nil => exact .ok ⟨h, rfl⟩
  | cons first firsts ih =>
    cases seconds with
    | nil => exact .ok ⟨h, rfl⟩
    | cons second seconds => exact .bind (h.processRound setup first second _ _) fun _ _ hst => ih seconds _ hst

variable [DecidableEq G1] [DecidableEq G2] [DecidableEq GT]

/-- **A zero-knowledge proof is bound to no statement**: its verdict is the same whatever value is
claimed and whatever point of that many coordinates it is claimed at. -/
theorem zk_verdict_any_statement (commitment : GT) (y y' : F) {point point' : List F}
    (hpoint : point.length = point'.length) {proof : DoryProof F G1 G2 GT} (he2 : proof.e2.isSome)
    (hy : proof.yCom.isSome) (setup : VerifierSetup G1 G2 GT) (t : S) :
    verifyEvaluationProof tr π pair commitment y point proof setup t =
      verifyEvaluationProof tr π pair commitment y' point' proof setup t := by
  obtain ⟨pe2, he2⟩ := Option.isSome_iff_exists.mp he2
  obtain ⟨yc, hy⟩ := Option.isSome_iff_exists.mp hy
  have hparts : verifyZkParts tr pair y proof setup = verifyZkParts tr pair y' proof setup := by
    funext t
    simp only [verifyZkParts, he2, hy]
  have hzk {t : S} {r : G2 × Bool × S} (hr : verifyZkParts tr pair y' proof setup t = .ok r) : r.2.1 = true := by
    simp only [verifyZkParts, he2, hy] at hr
    split at hr
    · simp only [Outcome.bind_eq_ok, Outcome.pure_eq, Outcome.ok.injEq] at hr
      obtain ⟨_, _, _, _, rfl⟩ := hr
      rfl
    · simp at hr
  rw [verifyEvaluationProof, verifyEvaluationProof, hpoint, hparts]
  refine Outcome.Rel.eq (.bind_same _ fun _ => .bind_same _ fun _ => ?_)
  refine .bind_same_of _ fun r hr => ?_
  obtain ⟨e2, isZk, t⟩ := r
  obtain rfl : isZk = true := hzk hr
  refine .bind_same _ fun _ => .bind (.sliceTo hpoint _) fun s1 s1' hs1 => .bind_same _ fun _ => ?_
  refine .bind (.slice hpoint _ _) fun s2 s2' hs2 => .bind_same _ fun _ => ?_
  refine .bind (verifyRounds_sameView tr setup _ _ _ (by exact ⟨rfl, rfl, rfl, rfl, hs1, by
    simp [DoryVerifierState.new, hs2]⟩)) ?_
  rintro ⟨st, t⟩ ⟨st', _⟩ ⟨hst, rfl⟩
  dsimp only
  cases hsp : proof.scalarProductProof with
  | none =>
    simp only [zkData, hsp, if_true]
    exact .error _
  | some sp =>
    simp only [zkData, hsp, if_true, Outcome.pure_eq, Outcome.ok_bind]
    rw [hst.verifyFinal_zk pair setup proof.finalMessage proof.finalMessage (tr.challenge t "gamma")
      (tr.challenge t "gamma")]
    exact .bind_same _ fun _ => .ok rfl

/-- The proof of one round that the value of a polynomial at `[5, 6]` is 18. -/
theorem zk_verdict_any_statement_one :
    let pair := LinearMap.mul ℚ ℚ
    let tr : Transcript Unit ℚ ℚ ℚ ℚ := { appendSerde := fun s _ _ => s, challengeScalar := fun s _ => (2, s) }
    let π : BuildProfile := { overflowChecks := true, debugAssertions := false }
    let setup : VerifierSetup ℚ ℚ ℚ :=
      { delta1l := [0, 2], delta1r := [0, 4], delta2l := [0, 2], delta2r := [0, 3], chi := [2, 8], g1First := 1
        g2First := 2, h1 := 5, h2 := 7, ht := 35, maxLogN := 2 }
    let proof : DoryProof ℚ ℚ ℚ ℚ :=
      { vmvMessage := ⟨508, 187, 61⟩, firstMessages := [⟨45, 92, 131, 168, 7, 7⟩]
        secondMessages := [⟨763 / 2, 615, 77, -35, -55, 205⟩], finalMessage := ⟨89, 753 / 4⟩, nu := 1, sigma := 1
        e2 := .some 71, yCom := .some 48, sigma1Proof := .some ⟨70, 52, 43, 18, 21⟩
        sigma2Proof := .some ⟨485, 18, 5⟩
        scalarProductProof := .some ⟨514, 551, 1830, 907, 70, 112, 22, 26, 139⟩ }
    verifyEvaluationProof tr π pair 148 19 [7, 8] proof setup () = .ok () := by
  intro pair tr π setup proof
  have hpoint : ([7, 8] : List ℚ).length = ([5, 6] : List ℚ).length := rfl
  rw [zk_verdict_any_statement tr π pair 148 19 18 hpoint rfl rfl setup ()]
  decide +kernel

end ZeroKnowledge

/-! ## Verdicts and panics -/

namespace Outcome

variable {α β : Type}

theorem bind_ne_panic {x : Outcome α} {f : α → Outcome β} (hx : x ≠ .panic) (hf : ∀ a, x = .ok a → f a ≠ .panic) :
    (x >>= f) ≠ .panic := by
  cases x with
  | ok a => exact hf a rfl
  | error e => simp
  | panic => exact absurd rfl hx

theorem check_ne_panic (p : Prop) [Decidable p] (e : DoryError) : check p e ≠ .panic := by
  rw [check]
  split <;> simp

theorem okOr_ne_panic (e : DoryError) (x : Option α) : okOr e x ≠ .panic := by
  cases x <;> simp

theorem ofOption_ne_panic {x : Option α} (h : x.isSome) : ofOption x ≠ .panic := by
  obtain ⟨a, rfl⟩ := Option.isSome_iff_exists.mp h
  simp

end Outcome

section Panics

/-- A setup whose lists have an entry for each round it allows. -/
structure VerifierSetup.Sized (setup : VerifierSetup G1 G2 GT) : Prop where
  chi : setup.maxLogN / 2 < setup.chi.length
  delta1l : setup.maxLogN / 2 < setup.delta1l.length
  delta1r : setup.maxLogN / 2 < setup.delta1r.length
  delta2l : setup.maxLogN / 2 < setup.delta2l.length
  delta2r : setup.maxLogN / 2 < setup.delta2r.length

omit [DecidableEq F] in
theorem ProverSetup.sized_derived (pair : G1 →ₗ[F] G2 →ₗ[F] GT) (s : ProverSetup G1 G2 GT) (m : Nat) (g1 : G1)
    (g2 : G2) : (s.derived pair m g1 g2).Sized := by
  constructor <;> simp [derived]

/-- A state whose lists have an entry for each round left. -/
structure DoryVerifierState.Ready (setup : VerifierSetup G1 G2 GT) (st : DoryVerifierState F G1 G2 GT) : Prop where
  numRounds_le : st.numRounds ≤ setup.maxLogN / 2
  length_s1Coords : st.numRounds ≤ st.s1Coords.length
  length_s2Coords : st.numRounds ≤ st.s2Coords.length

variable {setup : VerifierSetup G1 G2 GT}

theorem DoryVerifierState.Ready.processRound {st : DoryVerifierState F G1 G2 GT} (hs : setup.Sized)
    (h : st.Ready setup) (first : FirstReduceMessage G1 G2 GT) (second : SecondReduceMessage G1 G2 GT)
    (alpha beta : F) :
    st.processRound setup first second alpha beta ≠ .panic ∧
      ∀ st', st.processRound setup first second alpha beta = .ok st' → st'.Ready setup := by
  have hget {α : Type} {xs : List α} {i : Nat} (hi : i < xs.length) : ∃ a, xs[i]? = .some a :=
    ⟨_, List.getElem?_eq_getElem hi⟩
  have hle := h.numRounds_le
  rw [DoryVerifierState.processRound]
  by_cases hzero : st.numRounds ≠ 0
  case neg => simp [Outcome.check_false hzero]
  obtain ⟨_, hchi⟩ := hget (hle.trans_lt hs.chi)
  obtain ⟨_, hdelta1l⟩ := hget (hle.trans_lt hs.delta1l)
  obtain ⟨_, hdelta1r⟩ := hget (hle.trans_lt hs.delta1r)
  obtain ⟨_, hdelta2l⟩ := hget (hle.trans_lt hs.delta2l)
  obtain ⟨_, hdelta2r⟩ := hget (hle.trans_lt hs.delta2r)
  obtain ⟨_, hs1⟩ := hget (show st.numRounds - 1 < st.s1Coords.length by have := h.length_s1Coords; omega)
  obtain ⟨_, hs2⟩ := hget (show st.numRounds - 1 < st.s2Coords.length by have := h.length_s2Coords; omega)
  simp only [Outcome.check_true hzero, Outcome.ok_bind, hchi, hdelta1l, hdelta1r, hdelta2l, hdelta2r, hs1, hs2,
    Outcome.ofOption_some, Outcome.pure_eq]
  by_cases halpha : alpha = 0
  · simp [halpha]
  by_cases hbeta : beta = 0
  · simp [inv_of_ne halpha, hbeta]
  simp only [inv_of_ne halpha, inv_of_ne hbeta, Outcome.okOr_some, Outcome.ok_bind, Outcome.ok.injEq]
  refine ⟨by simp, ?_⟩
  rintro st' rfl
  have hs1' := h.length_s1Coords
  have hs2' := h.length_s2Coords
  exact ⟨by dsimp only; omega, by dsimp only; omega, by dsimp only; omega⟩

theorem DoryVerifierState.Ready.verifyRounds (tr : Transcript S F G1 G2 GT) (hs : setup.Sized)
    (firsts : List (FirstReduceMessage G1 G2 GT)) (seconds : List (SecondReduceMessage G1 G2 GT))
    {st : DoryVerifierState F G1 G2 GT} (h : st.Ready setup) (t : S) :
    verifyRounds tr setup firsts seconds st t ≠ .panic := by
  induction firsts generalizing seconds st t with
  | nil => simp [Dory.verifyRounds]
  | cons first firsts ih =>
    cases seconds with
    | nil => simp [Dory.verifyRounds]
    | cons second seconds =>
      rw [Dory.verifyRounds]
      have hround := h.processRound hs first second
      exact Outcome.bind_ne_panic (hround _ _).1 fun st' hst' => ih seconds ((hround _ _).2 st' hst') _

variable [DecidableEq G1] [DecidableEq G2] [DecidableEq GT] (tr : Transcript S F G1 G2 GT) (π : BuildProfile)
  (pair : G1 →ₗ[F] G2 →ₗ[F] GT)

omit [DecidableEq F] in
theorem verifyZkParts_ne_panic (y : F) (proof : DoryProof F G1 G2 GT) (setup : VerifierSetup G1 G2 GT) (t : S) :
    verifyZkParts tr pair y proof setup t ≠ .panic := by
  rw [verifyZkParts]
  split
  · dsimp only
    split
    · refine Outcome.bind_ne_panic ?_ fun _ _ => Outcome.bind_ne_panic ?_ fun _ _ => by simp
      · exact Outcome.bind_ne_panic (Outcome.check_ne_panic _ _) fun _ _ =>
          Outcome.bind_ne_panic (Outcome.check_ne_panic _ _) fun _ _ => by simp
      · exact Outcome.bind_ne_panic (Outcome.check_ne_panic _ _) fun _ _ => by simp
    · simp
  · simp
  · simp

omit [Field F] [DecidableEq F] [AddCommGroup G1] [Module F G1] [AddCommGroup G2] [Module F G2] [AddCommGroup GT]
  [Module F GT] [DecidableEq G1] [DecidableEq G2] [DecidableEq GT] in
theorem zkData_ne_panic (isZk : Bool) (proof : DoryProof F G1 G2 GT) (t : S) : zkData tr isZk proof t ≠ .panic := by
  rw [zkData]
  split
  · split <;> simp
  · simp

omit [DecidableEq G1] [DecidableEq G2] in
theorem verifyFinal_ne_panic (hs : setup.Sized) (st : DoryVerifierState F G1 G2 GT)
    (msg : ScalarProductMessage G1 G2) (gamma d : F) (data : Option (ScalarProductProof F G1 G2 GT × F)) :
    st.verifyFinal pair setup msg gamma d data ≠ .panic := by
  have hchi : (setup.chi[0]?).isSome := by
    have := hs.chi
    rw [List.getElem?_eq_getElem (show 0 < setup.chi.length by omega)]
    rfl
  refine Outcome.bind_ne_panic (Outcome.okOr_ne_panic _ _) fun _ _ =>
    Outcome.bind_ne_panic (Outcome.ofOption_ne_panic hchi) fun _ _ => ?_
  cases data with
  | some _ => exact Outcome.check_ne_panic _ _
  | none =>
    refine Outcome.bind_ne_panic (Outcome.okOr_ne_panic _ _) fun _ _ =>
      Outcome.bind_ne_panic (by simp [multiPair]) fun _ _ => Outcome.check_ne_panic _ _

/-- **Where the verifier stops without a verdict**: at an overflow of the number of variables, if it is
checked, and on a proof of more rows than columns that passes the checks before the coordinates are
copied. -/
theorem verify_panics_iff {prover : ProverSetup G1 G2 GT} {m : Nat} (hv : prover.Valid pair m)
    (hsetup : prover.toVerifierSetup pair = .ok setup) (commitment : GT) (y : F) (point : List F)
    (proof : DoryProof F G1 G2 GT) (hnu : proof.nu < 2 ^ 64) (t : S) :
    verifyEvaluationProof tr π pair commitment y point proof setup t = .panic ↔
      (2 ^ 64 ≤ proof.nu + proof.sigma ∧ π.overflowChecks = true) ∨
      proof.sigma < proof.nu ∧ point.length = (proof.nu + proof.sigma) % 2 ^ 64 ∧ proof.sigma ≤ m ∧
        proof.firstMessages.length = proof.sigma ∧ proof.secondMessages.length = proof.sigma ∧
        ∃ r, verifyZkParts tr pair y proof setup (tr.absorbVmv t proof.vmvMessage) = .ok r := by
  obtain ⟨g1First, g2First, h1, h2⟩ := hv.exists_first
  rw [hv.toVerifierSetup_eq h1 h2, Outcome.ok.injEq] at hsetup
  have hs : setup.Sized := by
    rw [← hsetup]
    exact prover.sized_derived pair m g1First g2First
  have hrounds : setup.maxLogN / 2 = m := by
    rw [← hsetup]
    exact Nat.mul_div_cancel m (by omega)
  have hm := hv.lt_width
  rw [verifyEvaluationProof]
  dsimp only
  by_cases hoverflow : 2 ^ 64 ≤ proof.nu + proof.sigma ∧ π.overflowChecks = true
  · rw [BuildProfile.addUsize, if_neg (Nat.not_lt.mpr hoverflow.1), if_pos hoverflow.2, Outcome.ofOption_none,
      Outcome.panic_bind]
    exact iff_of_true rfl (.inl hoverflow)
  have hadd : π.addUsize proof.nu proof.sigma = .some ((proof.nu + proof.sigma) % 2 ^ 64) := by
    by_cases hlt : proof.nu + proof.sigma < 2 ^ 64
    · rw [π.addUsize_of_lt hlt, Nat.mod_eq_of_lt hlt]
    · rw [BuildProfile.addUsize, if_neg hlt, if_neg fun h => hoverflow ⟨Nat.not_lt.mp hlt, h⟩]
  rw [hadd, Outcome.ofOption_some, Outcome.ok_bind, or_iff_right hoverflow]
  by_cases hpoint : point.length = (proof.nu + proof.sigma) % 2 ^ 64
  case neg =>
    rw [Outcome.check_false hpoint, Outcome.error_bind]
    exact iff_of_false (fun h => by cases h) fun h => hpoint h.2.1
  rw [Outcome.check_true hpoint, Outcome.ok_bind]
  cases hparts : verifyZkParts tr pair y proof setup (tr.absorbVmv t proof.vmvMessage) with
  | error e => simp
  | panic => exact absurd hparts (verifyZkParts_ne_panic tr pair y proof setup _)
  | ok r =>
    obtain ⟨e2, isZk, t⟩ := r
    rw [Outcome.ok_bind]
    dsimp only
    rw [hrounds]
    by_cases hsize : ¬ (proof.sigma > m ∨ proof.firstMessages.length ≠ proof.sigma ∨
      proof.secondMessages.length ≠ proof.sigma)
    case neg =>
      rw [Outcome.check_false hsize, Outcome.error_bind]
      simp only [reduceCtorEq, false_iff]
      omega
    obtain ⟨hsigma, hfirsts, hseconds⟩ : proof.sigma ≤ m ∧
        proof.firstMessages.length = proof.sigma ∧ proof.secondMessages.length = proof.sigma := by omega
    rw [Outcome.check_true hsize, Outcome.ok_bind]
    by_cases hlt : proof.nu + proof.sigma < 2 ^ 64
    case neg =>
      -- the wrapped sum is less than the number of columns
      have hshort : ¬ proof.sigma ≤ point.length := by omega
      rw [sliceTo, if_neg hshort, Outcome.panic_bind]
      exact iff_of_true rfl ⟨by omega, hpoint, hsigma, hfirsts, hseconds, _, rfl⟩
    rw [Nat.mod_eq_of_lt hlt] at hpoint
    have hstop := π.addUsize_of_lt (show proof.sigma + proof.nu < 2 ^ 64 by omega)
    rw [sliceTo_ok (by omega), Outcome.ok_bind, hstop, Outcome.ofOption_some, Outcome.ok_bind,
      slice_ok (by omega) (by omega), Outcome.ok_bind]
    by_cases hle : proof.nu ≤ proof.sigma
    · have hready : (DoryVerifierState.new proof.vmvMessage.c commitment proof.vmvMessage.d2 proof.vmvMessage.e1 e2
          (point.take proof.sigma) ((point.take (proof.sigma + proof.nu)).drop proof.sigma ++
            List.replicate (proof.sigma - proof.nu) 0) proof.sigma).Ready setup := by
        refine ⟨hsigma.trans hrounds.ge, ?_, ?_⟩ <;> simp [DoryVerifierState.new] <;> omega
      rw [Outcome.assert_true hle, Outcome.ok_bind]
      refine iff_of_false ?_ fun h => by omega
      refine Outcome.bind_ne_panic (hready.verifyRounds tr hs _ _ t) fun _ _ => ?_
      refine Outcome.bind_ne_panic (zkData_ne_panic tr _ _ _) fun _ _ => ?_
      exact Outcome.bind_ne_panic (verifyFinal_ne_panic pair hs _ _ _ _ _) fun _ _ => by simp
    · rw [Outcome.assert, if_neg hle, Outcome.panic_bind]
      exact iff_of_true rfl ⟨by omega, by rw [Nat.mod_eq_of_lt hlt, hpoint], hsigma, hfirsts, hseconds, _, rfl⟩

/-- One row too many, and a sum that wraps. -/
theorem verify_panics_iff_two :
    let pair := LinearMap.mul ℚ ℚ
    let prover : ProverSetup ℚ ℚ ℚ := .new pair 1 (fun i => i + 1) (fun i => i + 2) 5 7
    let tr : Transcript Unit ℚ ℚ ℚ ℚ := { appendSerde := fun s _ _ => s, challengeScalar := fun s _ => (1, s) }
    let π : BuildProfile := { overflowChecks := false, debugAssertions := false }
    let proof (nu sigma : Nat) : DoryProof ℚ ℚ ℚ ℚ :=
      { vmvMessage := ⟨0, 0, 0⟩, firstMessages := List.replicate sigma ⟨1, 2, 3, 4, 5, 6⟩
        secondMessages := List.replicate sigma ⟨1, 2, 3, 4, 5, 6⟩, finalMessage := ⟨0, 0⟩, nu, sigma
        e2 := .none, yCom := .none, sigma1Proof := .none, sigma2Proof := .none, scalarProductProof := .none }
    ∃ setup, prover.toVerifierSetup pair = .ok setup ∧
      verifyEvaluationProof tr π pair 0 0 [3, 4, 5] (proof 2 1) setup () = .panic ∧
      verifyEvaluationProof tr π pair 0 0 [] (proof (2 ^ 64 - 1) 1) setup () = .panic := by
  intro pair prover tr π proof
  have hv : prover.Valid pair 1 := ProverSetup.valid_new pair (by decide) _ _ _ _
  obtain ⟨g1First, g2First, h1, h2⟩ := hv.exists_first
  have hsetup := hv.toVerifierSetup_eq h1 h2
  exact ⟨_, hsetup,
    (verify_panics_iff tr π pair hv hsetup 0 0 [3, 4, 5] (proof 2 1) (by decide) ()).mpr
      (.inr ⟨by decide, rfl, by decide, rfl, rfl, _, rfl⟩),
    (verify_panics_iff tr π pair hv hsetup 0 0 [] (proof (2 ^ 64 - 1) 1) (by decide) ()).mpr
      (.inr ⟨by decide, by decide, by decide, rfl, rfl, _, rfl⟩)⟩

end Panics

end LightningJolt.Dory
