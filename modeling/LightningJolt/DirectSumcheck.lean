/-
A sumcheck by rounds: tables of affine functions whose lowest variable is bound first, the
polynomial of a round of the direct sumcheck, and the run of a prover whose state keeps an invariant.
-/
import LightningJolt.AffineTables
import LightningJolt.PolyRoundTrip

namespace LightningJolt

open Finset

variable {F C : Type} [JoltField F] [Challenge C F]

/-! ## The lowest variable first -/

theorem bitsPoint_even (n i : Nat) : (bitsPoint (n + 1) (2 * i) : List F) = bitsPoint n i ++ [0] := by
  have happ := bitsPoint_append (F := F) n 1 (i := i) (j := 0) (by decide)
  rw [show i * 2 ^ 1 + 0 = 2 * i by omega] at happ
  rw [happ]
  simp [bitsPoint, indexBits]

theorem bitsPoint_odd (n i : Nat) : (bitsPoint (n + 1) (2 * i + 1) : List F) = bitsPoint n i ++ [1] := by
  have happ := bitsPoint_append (F := F) n 1 (i := i) (j := 1) (by decide)
  rw [show i * 2 ^ 1 + 1 = 2 * i + 1 by omega] at happ
  rw [happ]
  simp [bitsPoint, indexBits]

/-- The values of a function with the first `n` coordinates Boolean. -/
def tableLow (G : List F → F) (n : Nat) (z : List F) : List F :=
  tableOf (2 ^ n) fun i => G (bitsPoint n i ++ z)

@[simp] theorem length_tableLow (G : List F → F) (n : Nat) (z : List F) : (tableLow G n z).length = 2 ^ n :=
  length_tableOf

theorem half_tableLow (G : List F → F) (n : Nat) (z : List F) : (tableLow G (n + 1) z).length / 2 = 2 ^ n := by
  rw [length_tableLow, pow_succ, Nat.mul_div_cancel _ (by omega)]

theorem getElem?_tableLow_even {G : List F → F} {n b : Nat} {z : List F} (h : b < 2 ^ n) :
    (tableLow G (n + 1) z)[2 * b]? = .some (G (bitsPoint n b ++ 0 :: z)) := by
  rw [tableLow, getElem?_tableOf (by rw [pow_succ]; omega), bitsPoint_even, List.append_assoc]
  rfl

theorem getElem?_tableLow_odd {G : List F → F} {n b : Nat} {z : List F} (h : b < 2 ^ n) :
    (tableLow G (n + 1) z)[2 * b + 1]? = .some (G (bitsPoint n b ++ 1 :: z)) := by
  rw [tableLow, getElem?_tableOf (by rw [pow_succ]; omega), bitsPoint_odd, List.append_assoc]
  rfl

/-- **A binding of the lowest variable** fixes the coordinate in front of those bound. -/
theorem bind_tableLow {G : List F → F} (hG : Affine G) (n : Nat) (z : List F) (r : F) :
    DensePolynomial.bind .lowToHigh (tableLow G (n + 1) z) r = tableLow G n (r :: z) := by
  rw [tableLow, pow_succ, Nat.mul_comm, DensePolynomial.bind_tableOf]
  refine tableOf_congr fun i _ => ?_
  rw [bindFn, hG _ r z]
  simp only [BindingOrder.pair, bitsPoint_even, bitsPoint_odd, List.append_assoc, List.singleton_append]

theorem tableLow_zero (G : List F → F) (z : List F) : tableLow G 0 z = [G z] := by
  rw [tableLow]
  simp [tableOf, bitsPoint, indexBits]

/-- `sumcheck_evals_array` of degree two: the linear polynomial of a pair, at 0 and 2. -/
def evalsArray (Z : List F) (index : Nat) : Option (F × F) := do
  match ← sumcheckEvals (Z[·]?) Z.length index 2 .lowToHigh with
  | [e0, e2] => .some (e0, e2)
  | _ => .none

theorem evalsArray_tableLow {G : List F → F} (hG : Affine G) {n b : Nat} (z : List F) (h : b < 2 ^ n) :
    evalsArray (tableLow G (n + 1) z) b =
      .some (G (bitsPoint n b ++ 0 :: z), G (bitsPoint n b ++ 2 :: z)) := by
  have htwo := hG (bitsPoint n b) 2 z
  simp only [evalsArray, sumcheckEvals, BindingOrder.pair, getElem?_tableLow_even h, getElem?_tableLow_odd h,
    Option.bind_eq_bind, Option.bind_some, if_neg (show ¬ 2 = 0 by omega), if_neg (show ¬ 2 = 1 by omega),
    List.iterate, htwo, line]
  congr 2
  ring

/-! ## Multilinear extensions -/

/-- The multilinear extension of a function of the index. -/
def mleOf (n : Nat) (f : Nat → F) (x : List F) : F := ∑ j ∈ range (2 ^ n), eqMle x (bitsPoint n j) * f j

theorem Affine.sum {ι : Type} {s : Finset ι} {G : ι → List F → F} (h : ∀ i ∈ s, Affine (G i)) :
    Affine fun x => ∑ i ∈ s, G i x := by
  intro a r z
  simp only [line]
  rw [← sum_sub_distrib, mul_sum, ← sum_add_distrib]
  exact sum_congr rfl fun i hi => h i hi a r z

/-- A function after fixed coordinates. -/
theorem Affine.after {G : List F → F} (hG : Affine G) (y : List F) : Affine fun x => G (y ++ x) := by
  intro a r z
  simp only [← List.append_assoc]
  exact hG (y ++ a) r z

theorem affine_mleOf (n : Nat) (f : Nat → F) : Affine (mleOf n f) :=
  Affine.sum fun j _ => by simpa only [mul_comm] using (affine_eqMle (bitsPoint n j)).const_mul (f j)

theorem mleOf_bitsPoint {n i : Nat} (f : Nat → F) (h : i < 2 ^ n) : mleOf n f (bitsPoint n i) = f i := by
  rw [mleOf, sum_eq_single_of_mem i (mem_range.mpr h) fun j hj hne => ?_]
  · rw [eqMle_bitsPoint h h, if_pos rfl, one_mul]
  · rw [eqMle_bitsPoint h (mem_range.mp hj), if_neg hne.symm, zero_mul]

/-- The last coordinates of an affine function by its values at the Boolean ones. -/
theorem Affine.sum_eqMle {G : List F → F} (hG : Affine G) (a : List F) (z : List F) :
    ∑ i ∈ range (2 ^ z.length), eqMle z (bitsPoint z.length i) * G (a ++ bitsPoint z.length i) = G (a ++ z) := by
  induction z generalizing a with
  | nil => simp [eqMle, bitsPoint, indexBits]
  | cons r z ih =>
    have hcons (b : F) (y : List F) : eqMle (r :: z) (b :: y) = eqFactor r b * eqMle z y := by
      rw [eqMle, List.zipWith_cons_cons, List.prod_cons]
      rfl
    have hpart (b : F) : ∑ i ∈ range (2 ^ z.length),
        eqMle (r :: z) (b :: bitsPoint z.length i) * G (a ++ b :: bitsPoint z.length i) =
          eqFactor r b * G (a ++ b :: z) := by
      have hrest := ih (a ++ [b])
      simp only [List.append_assoc, List.singleton_append] at hrest
      rw [← hrest, mul_sum]
      refine sum_congr rfl fun i _ => ?_
      rw [hcons]
      ring
    rw [List.length_cons, pow_succ, Nat.mul_two, sum_range_add]
    have hlow : ∀ i ∈ range (2 ^ z.length), eqMle (r :: z) (bitsPoint (z.length + 1) i) *
        G (a ++ bitsPoint (z.length + 1) i) =
          eqMle (r :: z) (0 :: bitsPoint z.length i) * G (a ++ 0 :: bitsPoint z.length i) := fun i hi => by
      rw [bitsPoint_low (mem_range.mp hi)]
    have hhigh : ∀ i ∈ range (2 ^ z.length), eqMle (r :: z) (bitsPoint (z.length + 1) (2 ^ z.length + i)) *
        G (a ++ bitsPoint (z.length + 1) (2 ^ z.length + i)) =
          eqMle (r :: z) (1 :: bitsPoint z.length i) * G (a ++ 1 :: bitsPoint z.length i) := fun i hi => by
      rw [bitsPoint_high (mem_range.mp hi)]
    rw [sum_congr rfl hlow, sum_congr rfl hhigh, hpart, hpart, hG a r z]
    simp only [eqFactor, line]
    ring

/-! ## The direct sumcheck -/

/-- The sum over the first `n` coordinates, the others as given. -/
def cubeSum (g : List F → F) (n : Nat) (z : List F) : F := ∑ i ∈ range (2 ^ n), g (bitsPoint n i ++ z)

theorem cubeSum_zero (g : List F → F) (z : List F) : cubeSum g 0 z = g z := by
  simp [cubeSum, bitsPoint, indexBits]

theorem cubeSum_succ (g : List F → F) (n : Nat) (z : List F) :
    cubeSum g (n + 1) z = cubeSum g n (0 :: z) + cubeSum g n (1 :: z) := by
  rw [cubeSum, pow_succ, sum_range_mul]
  simp only [sum_range_succ, sum_range_zero, zero_add, cubeSum, add_zero, Nat.mul_comm _ 2, bitsPoint_even, bitsPoint_odd,
    List.append_assoc, List.singleton_append, sum_add_distrib]

/-- The first coordinates are summed over in two parts. -/
theorem cubeSum_add (g : List F → F) (m n : Nat) (z : List F) :
    cubeSum g (m + n) z = cubeSum (fun y => ∑ i ∈ range (2 ^ m), g (bitsPoint m i ++ y)) n z := by
  rw [cubeSum, pow_add, sum_range_mul, sum_comm, cubeSum]
  refine sum_congr rfl fun j hj => sum_congr rfl fun i _ => ?_
  rw [bitsPoint_append m n (mem_range.mp hj), List.append_assoc]

theorem cubeSum_congr {g h : List F → F} {n : Nat} {z : List F} (heq : ∀ x, x.length = n + z.length → g x = h x) :
    cubeSum g n z = cubeSum h n z :=
  sum_congr rfl fun i _ => heq _ (by rw [List.length_append, length_bitsPoint])

/-- A polynomial by its degree and its values. -/
structure UniPoly.Is (p : UniPoly F) (degree : Nat) (f : F → F) : Prop where
  length : p.coeffs.length = degree + 1
  value : ∀ x, horner x p.coeffs = f x

/-- The messages are the polynomials of the direct sumcheck, the challenges of `z` bound. -/
def Direct (g : List F → F) (degree : Nat) : List F → List C → List (UniPoly F) → Prop
  | _, [], [] => True
  | z, r :: rs, p :: ps =>
    (p.Is degree fun x => cubeSum g rs.length (x :: z)) ∧ Direct g degree (Challenge.into r :: z) rs ps
  | _, _, _ => False

/-! ## Quadratic rounds -/

/-- A function with three coefficients. -/
def IsQuadratic (f : F → F) : Prop := ∃ c0 c1 c2, ∀ x, f x = horner x [c0, c1, c2]

/-- A function of a point is quadratic in each coordinate, the others as they are. -/
def Quadratic (g : List F → F) : Prop := ∀ a z : List F, IsQuadratic fun x => g (a ++ x :: z)

theorem IsQuadratic.sum {ι : Type} {s : Finset ι} {f : ι → F → F} (h : ∀ i ∈ s, IsQuadratic (f i)) :
    IsQuadratic fun x => ∑ i ∈ s, f i x := by
  classical
  induction s using Finset.induction_on with
  | empty => exact ⟨0, 0, 0, fun x => by simp [horner]⟩
  | insert i s hi ih =>
    obtain ⟨a0, a1, a2, ha⟩ := h i (mem_insert_self i s)
    obtain ⟨b0, b1, b2, hb⟩ := ih fun j hj => h j (mem_insert_of_mem hj)
    refine ⟨a0 + b0, a1 + b1, a2 + b2, fun x => ?_⟩
    simp only [sum_insert hi, ha, hb, horner, List.foldr_cons, List.foldr_nil]
    ring

theorem Affine.mul {P Q : List F → F} (hP : Affine P) (hQ : Affine Q) : Quadratic fun x => P x * Q x := by
  intro a z
  refine ⟨P (a ++ 0 :: z) * Q (a ++ 0 :: z),
    P (a ++ 0 :: z) * (Q (a ++ 1 :: z) - Q (a ++ 0 :: z)) + (P (a ++ 1 :: z) - P (a ++ 0 :: z)) * Q (a ++ 0 :: z),
    (P (a ++ 1 :: z) - P (a ++ 0 :: z)) * (Q (a ++ 1 :: z) - Q (a ++ 0 :: z)), fun x => ?_⟩
  simp only [hP a x z, hQ a x z, line, horner, List.foldr_cons, List.foldr_nil]
  ring

theorem Quadratic.sum {ι : Type} {s : Finset ι} {g : ι → List F → F} (h : ∀ i ∈ s, Quadratic (g i)) :
    Quadratic fun x => ∑ i ∈ s, g i x :=
  fun a z => IsQuadratic.sum fun i hi => h i hi a z

theorem Quadratic.add {g h : List F → F} (hg : Quadratic g) (hh : Quadratic h) : Quadratic fun x => g x + h x := by
  intro a z
  obtain ⟨a0, a1, a2, ha⟩ := hg a z
  obtain ⟨b0, b1, b2, hb⟩ := hh a z
  refine ⟨a0 + b0, a1 + b1, a2 + b2, fun x => ?_⟩
  simp only [ha, hb, horner, List.foldr_cons, List.foldr_nil]
  ring

theorem Quadratic.const_mul {g : List F → F} (hg : Quadratic g) (k : F) : Quadratic fun x => k * g x := by
  intro a z
  obtain ⟨a0, a1, a2, ha⟩ := hg a z
  refine ⟨k * a0, k * a1, k * a2, fun x => ?_⟩
  simp only [ha, horner, List.foldr_cons, List.foldr_nil]
  ring

theorem Quadratic.cubeSum {g : List F → F} (hg : Quadratic g) (n : Nat) (z : List F) :
    IsQuadratic fun x => cubeSum g n (x :: z) := IsQuadratic.sum fun i _ => hg (bitsPoint n i) z

/-- The values at 0 and 2 over all indices of a round. -/
def sumIndices (halfN : Nat) (evalsAt : Nat → Option (F × F)) : Option (F × F) := do
  let each ← (List.range halfN).mapM evalsAt
  .some ((each.map (·.1)).sum, (each.map (·.2)).sum)

theorem sumIndices_eq {g : List F → F} {n : Nat} {z : List F} {evalsAt : Nat → Option (F × F)}
    (h : ∀ b < 2 ^ n, evalsAt b = .some (g (bitsPoint n b ++ 0 :: z), g (bitsPoint n b ++ 2 :: z))) :
    sumIndices (2 ^ n) evalsAt = .some (cubeSum g n (0 :: z), cubeSum g n (2 :: z)) := by
  rw [sumIndices, mapM_range h, Option.bind_eq_bind, Option.bind_some, map_tableOf, map_tableOf]
  rfl

/-- The hint being the sum of the values at zero and one, the two others make the polynomial. -/
theorem fromEvalsAndHint_quadratic [DecidableEq F] {f : F → F} (hf : IsQuadratic f) {hint : F}
    (hhint : hint = f 0 + f 1) : ∃ p, UniPoly.fromEvalsAndHint hint [f 0, f 2] = .some p ∧ p.Is 2 f := by
  obtain ⟨c0, c1, c2, hc⟩ := hf
  refine ⟨⟨[c0, c1, c2]⟩, ?_, rfl, fun x => (hc x).symm⟩
  rw [UniPoly.fromEvalsAndHint, hhint, add_sub_cancel_left, hc 0, hc 1, hc 2, UniPoly.fromEvalsDegree2_eq]

/-- The weighted products of two tables each, at 0 and 2. -/
def productEvals (terms : List (F × List F × List F)) (index : Nat) : Option (F × F) := do
  let each ← terms.mapM fun (w, P, Q) => do
    let p ← evalsArray P index
    let q ← evalsArray Q index
    .some (w * (p.1 * q.1), w * (p.2 * q.2))
  .some ((each.map (·.1)).sum, (each.map (·.2)).sum)

/-- A message from weighted products. -/
def productMessage [DecidableEq F] (terms : List (F × List F × List F)) (halfN : Nat) (hint : F) :
    Option (UniPoly F) := do
  let (e0, e2) ← sumIndices halfN (productEvals terms)
  UniPoly.fromEvalsAndHint hint [e0, e2]

/-- A weight and two functions of the point. -/
abbrev WeightedProduct (F : Type) : Type := F × (List F → F) × (List F → F)

/-- The weighted products at a point. -/
def productsAt (ts : List (WeightedProduct F)) (x : List F) : F := (ts.map fun t => t.1 * (t.2.1 x * t.2.2 x)).sum

/-- Their tables. -/
def productTables (ts : List (WeightedProduct F)) (n : Nat) (z : List F) : List (F × List F × List F) :=
  ts.map fun t => (t.1, tableLow t.2.1 n z, tableLow t.2.2 n z)

theorem quadratic_productsAt {ts : List (WeightedProduct F)} (h : ∀ t ∈ ts, Affine t.2.1 ∧ Affine t.2.2) :
    Quadratic (productsAt ts) := by
  induction ts with
  | nil => exact fun _ _ => ⟨0, 0, 0, fun x => by simp [productsAt, horner]⟩
  | cons t ts ih =>
    obtain ⟨hP, hQ⟩ := h t (List.mem_cons_self ..)
    have hrest := ih fun u hu => h u (List.mem_cons_of_mem _ hu)
    have hsum := ((hP.mul hQ).const_mul t.1).add hrest
    intro a z
    simpa only [productsAt, List.map_cons, List.sum_cons] using hsum a z

theorem productEvals_tables {ts : List (WeightedProduct F)} (h : ∀ t ∈ ts, Affine t.2.1 ∧ Affine t.2.2) {n b : Nat}
    (z : List F) (hb : b < 2 ^ n) : productEvals (productTables ts (n + 1) z) b =
      .some (productsAt ts (bitsPoint n b ++ 0 :: z), productsAt ts (bitsPoint n b ++ 2 :: z)) := by
  have heach : (productTables ts (n + 1) z).mapM (fun (w, P, Q) => do
        let p ← evalsArray P b
        let q ← evalsArray Q b
        .some (w * (p.1 * q.1), w * (p.2 * q.2))) = .some (ts.map fun t =>
      (t.1 * (t.2.1 (bitsPoint n b ++ 0 :: z) * t.2.2 (bitsPoint n b ++ 0 :: z)),
        t.1 * (t.2.1 (bitsPoint n b ++ 2 :: z) * t.2.2 (bitsPoint n b ++ 2 :: z)))) := by
    rw [productTables, List.mapM_map]
    refine mapM_of_some fun t ht => ?_
    obtain ⟨hP, hQ⟩ := h t ht
    simp only [Function.comp_apply, evalsArray_tableLow hP z hb, evalsArray_tableLow hQ z hb, Option.bind_eq_bind,
      Option.bind_some]
  rw [productEvals, heach]
  simp only [Option.bind_eq_bind, Option.bind_some, List.map_map, productsAt]
  rfl

/-- **A message from tables of affine functions** is the polynomial of the direct sumcheck. -/
theorem productMessage_tables [DecidableEq F] {ts : List (WeightedProduct F)}
    (h : ∀ t ∈ ts, Affine t.2.1 ∧ Affine t.2.2) (n : Nat) (z : List F) :
    ∃ p, productMessage (productTables ts (n + 1) z) (2 ^ n) (cubeSum (productsAt ts) (n + 1) z) = .some p ∧
      p.Is 2 fun x => cubeSum (productsAt ts) n (x :: z) := by
  rw [productMessage, sumIndices_eq fun b hb => productEvals_tables h z hb]
  exact fromEvalsAndHint_quadratic ((quadratic_productsAt h).cubeSum n z) (cubeSum_succ _ n z)

/-! ## The run of a prover -/

/-- A prover of one sumcheck, `none` a panic. -/
structure FallibleProver (S F C : Type) where
  computeMessage : S → F → Option (UniPoly F)
  ingestChallenge : S → C → Option S

namespace FallibleProver

variable {S : Type} (P : FallibleProver S F C)

/-- The rounds: the messages, the last state and the last claim. -/
def rounds : S → F → List C → Option (List (UniPoly F) × S × F)
  | s, claim, [] => .some ([], s, claim)
  | s, claim, r :: rs => do
    let p ← P.computeMessage s claim
    let s' ← P.ingestChallenge s r
    let (ps, last) ← rounds s' (← p.evaluate r) rs
    .some (p :: ps, last)

/-- The state after some challenges. -/
def after (s : S) (rs : List C) : Option S := rs.foldlM P.ingestChallenge s

omit [JoltField F] in
theorem reverse_take_succ (r : C) (rs : List C) (z : List F) (i : Nat) :
    (((r :: rs).take (i + 1)).map Challenge.into).reverse ++ z =
      ((rs.take i).map Challenge.into).reverse ++ (Challenge.into r :: z : List F) := by simp

/-- What a prover's invariant has to give in a round: the polynomial of the direct sumcheck, and
itself again after the challenge. -/
structure Exact (g : List F → F) (degree : Nat) (Inv : Nat → List F → S → Prop) : Prop where
  message : ∀ {n z s}, Inv (n + 1) z s → ∃ p,
    P.computeMessage s (cubeSum g (n + 1) z) = .some p ∧ p.Is degree fun x => cubeSum g n (x :: z)
  challenge : ∀ {n z s}, Inv (n + 1) z s → ∀ r : C, ∃ s',
    P.ingestChallenge s r = .some s' ∧ Inv n (Challenge.into r :: z) s'

/-- What an invariant has to give where a prover panics in some rounds: the polynomial of the direct
sumcheck where the challenges so far are good, a panic where they are not. -/
structure ExactWhere (g : List F → F) (degree : Nat) (Good : List F → Prop) (Inv : Nat → List F → S → Prop) : Prop where
  message : ∀ {n z s}, Inv (n + 1) z s → Good z → ∃ p,
    P.computeMessage s (cubeSum g (n + 1) z) = .some p ∧ p.Is degree fun x => cubeSum g n (x :: z)
  panic : ∀ {n z s}, Inv (n + 1) z s → ¬ Good z → P.computeMessage s (cubeSum g (n + 1) z) = .none
  challenge : ∀ {n z s}, Inv (n + 1) z s → ∀ r : C, ∃ s',
    P.ingestChallenge s r = .some s' ∧ Inv n (Challenge.into r :: z) s'

variable {P} {g : List F → F} {degree : Nat} {Good : List F → Prop} {Inv : Nat → List F → S → Prop}

/-- **The rounds go through exactly where all challenges are good**, and are then those of the direct
sumcheck. -/
theorem ExactWhere.rounds (h : P.ExactWhere g degree Good Inv) (rs : List C) {z : List F} {s : S}
    (hs : Inv rs.length z s) :
    ((∀ i < rs.length, Good (((rs.take i).map Challenge.into).reverse ++ z)) →
      ∃ ps s', P.rounds s (cubeSum g rs.length z) rs = .some (ps, s', g ((rs.map Challenge.into).reverse ++ z)) ∧
        Direct g degree z rs ps ∧ Inv 0 ((rs.map Challenge.into).reverse ++ z) s') ∧
    (∀ i < rs.length, ¬ Good (((rs.take i).map Challenge.into).reverse ++ z) →
      P.rounds s (cubeSum g rs.length z) rs = .none) := by
  induction rs generalizing z s with
  | nil => exact ⟨fun _ => ⟨[], s, by rw [List.length_nil, cubeSum_zero]; rfl, trivial, hs⟩, nofun⟩
  | cons r rs ih =>
    obtain ⟨s1, hs1, hinv⟩ := h.challenge hs r
    obtain ⟨hgoes, hfails⟩ := ih hinv
    by_cases hgood : Good z
    · obtain ⟨p, hp, his⟩ := h.message hs hgood
      have hne : p.coeffs ≠ [] := List.ne_nil_of_length_eq_add_one his.length
      have hstep : P.rounds s (cubeSum g (r :: rs).length z) (r :: rs) = (do
          let (ps, last) ← P.rounds s1 (cubeSum g rs.length (Challenge.into r :: z)) rs
          .some (p :: ps, last)) := by
        rw [FallibleProver.rounds, List.length_cons, hp, Option.bind_eq_bind, Option.bind_some, hs1,
          Option.bind_eq_bind, Option.bind_some, UniPoly.evaluate_eq hne r, his.value, Option.bind_eq_bind,
          Option.bind_some]
      constructor
      · intro hall
        obtain ⟨ps, s', hrounds, hdirect, hlast⟩ := hgoes fun i hi => by
          rw [← reverse_take_succ]
          exact hall (i + 1) (Nat.succ_lt_succ hi)
        refine ⟨p :: ps, s', ?_, ⟨his, hdirect⟩, by simpa using hlast⟩
        rw [hstep, hrounds]
        simp
      · intro i hi hbad
        cases i with
        | zero => exact absurd hgood (by simpa using hbad)
        | succ i =>
          rw [reverse_take_succ] at hbad
          rw [hstep, hfails i (Nat.lt_of_succ_lt_succ hi) hbad]
          rfl
    · have hnone : P.rounds s (cubeSum g (r :: rs).length z) (r :: rs) = .none := by
        rw [FallibleProver.rounds, List.length_cons, h.panic hs hgood]
        rfl
      exact ⟨fun hall => absurd (by simpa using hall 0 (Nat.succ_pos _)) hgood, fun _ _ _ => hnone⟩

/-- **Every round is that of the direct sumcheck**, and the last claim is the function at the
challenges, the last first. -/
theorem Exact.rounds (h : P.Exact g degree Inv) (rs : List C) {z : List F} {s : S} (hs : Inv rs.length z s) :
    ∃ ps s', P.rounds s (cubeSum g rs.length z) rs =
        .some (ps, s', g ((rs.map Challenge.into).reverse ++ z)) ∧
      Direct g degree z rs ps ∧ Inv 0 ((rs.map Challenge.into).reverse ++ z) s' := by
  have hwhere : P.ExactWhere g degree (fun _ => True) Inv :=
    ⟨fun hs _ => h.message hs, fun _ hbad => absurd trivial hbad, h.challenge⟩
  exact (hwhere.rounds rs hs).1 fun _ _ => trivial

theorem Exact.after (h : P.Exact g degree Inv) (rs : List C) {n : Nat} {z : List F} {s : S}
    (hs : Inv (n + rs.length) z s) :
    ∃ s', P.after s rs = .some s' ∧ Inv n ((rs.map Challenge.into).reverse ++ z) s' := by
  induction rs generalizing z s with
  | nil => exact ⟨s, rfl, hs⟩
  | cons r rs ih =>
    obtain ⟨s1, hs1, hinv⟩ := h.challenge (n := n + rs.length) hs r
    obtain ⟨s', hafter, hlast⟩ := ih hinv
    refine ⟨s', ?_, by simpa using hlast⟩
    rw [FallibleProver.after, List.foldlM_cons, hs1]
    exact hafter

end FallibleProver

/-! ## Runs that go on with another polynomial -/

namespace FallibleProver

/-- The messages have the values of the polynomials of the direct sumcheck, and its degree. -/
def Follows (g : List F → F) (degree : Nat) : List F → List C → List (UniPoly F) → Prop
  | _, [], [] => True
  | z, r :: rs, p :: ps =>
    (p.coeffs.length ≤ degree + 1 ∧ ∀ x, horner x p.coeffs = cubeSum g rs.length (x :: z)) ∧
      Follows g degree (Challenge.into r :: z) rs ps
  | _, _, _ => False

variable {S : Type}

/-- What an invariant has to give where a prover is exact in some rounds and not in the others. -/
structure ExactJust (P : FallibleProver S F C) (g : List F → F) (degree : Nat) (Good : List F → Prop)
    (Inv : Nat → List F → S → Prop) : Prop where
  message : ∀ {n z s}, Inv (n + 1) z s → Good z → ∃ p, P.computeMessage s (cubeSum g (n + 1) z) = .some p ∧
    p.coeffs ≠ [] ∧ p.coeffs.length ≤ degree + 1 ∧ ∀ x, horner x p.coeffs = cubeSum g n (x :: z)
  other : ∀ {n z s}, Inv (n + 1) z s → ¬ Good z → ∀ p, P.computeMessage s (cubeSum g (n + 1) z) = .some p →
    ¬ ∀ x, horner x p.coeffs = cubeSum g n (x :: z)
  challenge : ∀ {n z s}, Inv (n + 1) z s → ∀ r : C, ∃ s',
    P.ingestChallenge s r = .some s' ∧ Inv n (Challenge.into r :: z) s'

variable {P : FallibleProver S F C} {g : List F → F} {degree : Nat} {Good : List F → Prop}
  {Inv : Nat → List F → S → Prop}

/-- Good rounds are those of the direct sumcheck. -/
theorem ExactJust.rounds (h : P.ExactJust g degree Good Inv) (rs : List C) {z : List F} {s : S}
    (hs : Inv rs.length z s) (hgood : ∀ i < rs.length, Good (((rs.take i).map Challenge.into).reverse ++ z)) :
    ∃ ps s', P.rounds s (cubeSum g rs.length z) rs = .some (ps, s', g ((rs.map Challenge.into).reverse ++ z)) ∧
      Follows g degree z rs ps ∧ Inv 0 ((rs.map Challenge.into).reverse ++ z) s' := by
  induction rs generalizing z s with
  | nil => exact ⟨[], s, by rw [List.length_nil, cubeSum_zero]; rfl, trivial, hs⟩
  | cons r rs ih =>
    obtain ⟨p, hp, hne, hlen, hvalue⟩ := h.message hs (by simpa using hgood 0 (Nat.succ_pos _))
    obtain ⟨s1, hs1, hinv⟩ := h.challenge hs r
    obtain ⟨ps, s', hrounds, hfollows, hlast⟩ := ih hinv fun i hi => by
      rw [← reverse_take_succ]
      exact hgood (i + 1) (Nat.succ_lt_succ hi)
    refine ⟨p :: ps, s', ?_, ⟨⟨hlen, hvalue⟩, hfollows⟩, by simpa using hlast⟩
    rw [FallibleProver.rounds, List.length_cons, hp, Option.bind_eq_bind, Option.bind_some, hs1, Option.bind_eq_bind,
      Option.bind_some, UniPoly.evaluate_eq hne r, hvalue, Option.bind_eq_bind, Option.bind_some, hrounds]
    simp

/-- A run whose messages are those of the direct sumcheck has good rounds only. -/
theorem ExactJust.good (h : P.ExactJust g degree Good Inv) (rs : List C) {z : List F} {s : S}
    (hs : Inv rs.length z s) {ps : List (UniPoly F)} {s' : S} {last : F}
    (hrun : P.rounds s (cubeSum g rs.length z) rs = .some (ps, s', last)) (hfollows : Follows g degree z rs ps) :
    ∀ i < rs.length, Good (((rs.take i).map Challenge.into).reverse ++ z) := by
  induction rs generalizing z s ps with
  | nil => exact nofun
  | cons r rs ih =>
    rw [FallibleProver.rounds, Option.bind_eq_bind] at hrun
    obtain ⟨p, hp, hrun⟩ := Option.bind_eq_some_iff.mp hrun
    obtain ⟨s1, hs1, hrun⟩ := Option.bind_eq_some_iff.mp hrun
    obtain ⟨claim, hclaim, hrun⟩ := Option.bind_eq_some_iff.mp hrun
    obtain ⟨⟨qs, s2, last2⟩, hrest, hrun⟩ := Option.bind_eq_some_iff.mp hrun
    cases hrun
    obtain ⟨⟨-, hvalue⟩, hfollows⟩ := hfollows
    have hgood : Good z := by_contra fun hbad => h.other hs hbad p hp hvalue
    obtain ⟨p', hp', hne, -⟩ := h.message hs hgood
    obtain ⟨s1', hs1', hinv⟩ := h.challenge hs r
    cases hp.symm.trans hp'
    cases hs1.symm.trans hs1'
    rw [UniPoly.evaluate_eq hne r, hvalue] at hclaim
    cases hclaim
    intro i hi
    cases i with
    | zero => simpa using hgood
    | succ i =>
      rw [reverse_take_succ]
      exact ih hinv hrest hfollows i (Nat.lt_of_succ_lt_succ hi)

end FallibleProver

end LightningJolt
