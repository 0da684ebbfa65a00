/-
Rounds over sums of products of one-hot rows (`jolt-core/src/subprotocols/mles_product_sum.rs`): the
fold over several products, the last steps for any quotient, and the rows and the equality
polynomial after any number of challenges.
-/
import LightningJolt.DirectSumcheck
import LightningJolt.ProductSum
import LightningJolt.RaBinding

namespace LightningJolt

open Finset

variable {F C : Type} [JoltField F] [Challenge C F]

/-! ## Several products in one fold -/

/-- `impl_mles_sum_of_products_evals_d`. -/
def computeMlesSumOfProductsEvalsD (d : Nat) (evalProd : List (F × F) → List F) (mles : List (RaPolynomial F))
    (nProducts : Nat) (s : GruenSplitEqPolynomial F C) : Option (List F) := do
  let sumEvals ← s.parFoldOutInUnreduced d fun g => do
    let terms ← (List.range nProducts).mapM fun t => endpointsAt evalProd ((mles.drop (t * d)).take d) g
    .some (terms.foldl (List.zipWith (· + ·)) (List.replicate d 0))
  .some (sumEvals.map (· * s.currentScalar))

/-- The quotients of several products. -/
noncomputable def quotients (scalar : F) (weights : List F) (groups : Nat → List (List F)) (nProducts : Nat) :
    Polynomial F :=
  ∑ t ∈ range nProducts, quotient scalar weights (groups t)

theorem natDegree_quotients_le {scalar : F} {weights : List F} {groups : Nat → List (List F)} {nProducts d : Nat}
    (hlen : ∀ t < nProducts, (groups t).length = d) : (quotients scalar weights groups nProducts).natDegree ≤ d :=
  Polynomial.natDegree_sum_le_of_forall_le _ _ fun t ht =>
    (natDegree_quotient_le scalar weights (groups t)).trans (hlen t (mem_range.mp ht)).le

omit [Challenge C F] in
/-- The values that the fold finds are those of the quotients. -/
theorem computeMlesSumOfProductsEvalsD_eq {s : GruenSplitEqPolynomial F C} {eOut eIn : List F} {a b d nProducts : Nat}
    {evalProd : List (F × F) → List F} {mles : List (RaPolynomial F)} {groups : Nat → List (List F)}
    (hout : s.eOutCurrent = .some eOut) (hin : s.eInCurrent = .some eIn) (hlenOut : eOut.length = 2 ^ a)
    (hlenIn : eIn.length = 2 ^ b) (hlen : ∀ t < nProducts, (groups t).length = d + 1)
    (heval : ∀ pairs, pairs.length = d + 1 → evalProd pairs = grid pairs)
    (hreads : ∀ t < nProducts, List.Forall₂ (fun mle table => table.length = 2 * (eOut.length * eIn.length) ∧
      ReadsTable mle table) ((mles.drop (t * (d + 1))).take (d + 1)) (groups t)) :
    computeMlesSumOfProductsEvalsD (d + 1) evalProd mles nProducts s =
      .some (((List.range d).map fun i : Nat =>
          (quotients s.currentScalar (tensor eOut eIn) groups nProducts).eval ((i + 1 : Nat) : F)) ++
        [(quotients s.currentScalar (tensor eOut eIn) groups nProducts).coeff (d + 1)]) := by
  have hpairs : ∀ t < nProducts, ∀ g, (pairsAt (groups t) g).length = d + 1 :=
    fun t ht g => (length_pairsAt (groups t) g).trans (hlen t ht)
  have hterm (g : Nat) (hg : g < eOut.length * eIn.length) :
      (List.range nProducts).mapM (fun t => endpointsAt evalProd ((mles.drop (t * (d + 1))).take (d + 1)) g) =
        .some (tableOf nProducts fun t => tableOf (d + 1) fun k => if k < d then valueAt (pairsAt (groups t) g) (k + 1)
          else leadingProduct (pairsAt (groups t) g)) := by
    refine mapM_range fun t ht => ?_
    rw [endpointsAt, mapM_pairsAt (hreads t ht) hg, Option.bind_eq_bind, Option.bind_some, heval _ (hpairs t ht g),
      grid_eq_tableOf (hpairs t ht g)]
  have hvalues (g : Nat) (hg : g < eOut.length * eIn.length) : (do
      let terms ← (List.range nProducts).mapM fun t => endpointsAt evalProd ((mles.drop (t * (d + 1))).take (d + 1)) g
      .some (terms.foldl (List.zipWith (· + ·)) (List.replicate (d + 1) 0))) =
      .some (tableOf (d + 1) ((fun g k => ∑ t ∈ range nProducts, if k < d then valueAt (pairsAt (groups t) g) (k + 1)
        else leadingProduct (pairsAt (groups t) g)) g)) := by
    have hzero : List.replicate (d + 1) (0 : F) = tableOf (d + 1) fun _ => 0 := by
      rw [tableOf, List.map_const', List.length_range]
    rw [hterm g hg, Option.bind_eq_bind, Option.bind_some, hzero, foldl_lanes]
    simp only [zero_add]
  have hne : eOut ≠ [] := List.length_pos_iff.mp (hlenOut ▸ Nat.two_pow_pos a)
  rw [computeMlesSumOfProductsEvalsD, GruenSplitEqPolynomial.parFoldOutInUnreduced_eq hout hin hlenIn hne hvalues,
    Option.bind_eq_bind, Option.bind_some, map_tableOf, tableOf_add]
  have hswap (f : Nat → Nat → F) : (∑ g ∈ range (eOut.length * eIn.length), (tensor eOut eIn).getD g 0 *
      ∑ t ∈ range nProducts, f t g) * s.currentScalar = ∑ t ∈ range nProducts, s.currentScalar *
        ∑ g ∈ range (eOut.length * eIn.length), (tensor eOut eIn).getD g 0 * f t g := by
    rw [← mul_sum, mul_comm, sum_comm]
    simp only [mul_sum]
  congr 2
  · refine List.map_congr_left fun k hk => ?_
    rw [List.mem_range] at hk
    simp only [if_pos hk, hswap]
    rw [quotients, Polynomial.eval_finsetSum]
    refine sum_congr rfl fun t _ => ?_
    rw [eval_quotient, length_tensor]
    rfl
  · rw [quotients, Polynomial.finsetSum_coeff]
    have hcoeff : ∀ t ∈ range nProducts, (quotient s.currentScalar (tensor eOut eIn) (groups t)).coeff (d + 1) =
        s.currentScalar * ∑ g ∈ range (eOut.length * eIn.length),
          (tensor eOut eIn).getD g 0 * leadingProduct (pairsAt (groups t) g) := fun t ht => by
      rw [← hlen t (mem_range.mp ht), coeff_quotient, length_tensor]
    rw [sum_congr rfl hcoeff, ← hswap]
    simp [tableOf]

/-! ## The last steps -/

section Finish

variable [DecidableEq F]

/-- From the values of a quotient the polynomial is the quotient times the equality factor. -/
theorem finishMlesProductSum_of_quotient {s : GruenSplitEqPolynomial F C} {current : C}
    (hcurrent : s.getCurrentW = .some current) (hhint : (1 : F) - Challenge.into current ≠ 0) {q : Polynomial F}
    {d : Nat} (hd : 1 ≤ d) (hdegree : q.natDegree ≤ d + 1) (hchar : ∀ k, 0 < k → k < d + 1 → (k : F) ≠ 0) {claim : F}
    (hclaim : claim = eqFactor (Challenge.into current) 0 * q.eval 0 + eqFactor (Challenge.into current) 1 * q.eval 1) :
    ∃ p, finishMlesProductSumFromEvals (((List.range d).map fun i : Nat => q.eval ((i + 1 : Nat) : F)) ++
        [q.coeff (d + 1)]) claim s = .some p ∧
      p.Is (d + 2) fun x => eqFactor (Challenge.into current) x * q.eval x := by
  have hcoeffs := ofCoeffs_tableOf_coeff hdegree
  obtain ⟨p, hp, hplen, hpoly⟩ := GruenSplitEqPolynomial.gruenPolyFromEvals_eq
    (s := { s with currentScalar := 1 }) hcurrent (q.coeff (d + 1))
    (show 2 ≤ (tableOf (d + 1) q.coeff).length by rw [length_tableOf]; omega)
    (fun k hk hlt => hchar k hk (by rwa [length_tableOf] at hlt))
    (by rw [eval_linear_one]; simpa [eqFactor] using hhint)
  rw [hcoeffs, length_tableOf, Nat.add_sub_cancel, GruenSplitEqPolynomial.roundClaim, Polynomial.eval_mul,
    Polynomial.eval_mul, eval_linear_one, eval_linear_one, ← hclaim] at hp
  rw [hcoeffs] at hpoly
  refine ⟨p, by rw [finishMlesProductSumFromEvals_eq, hp], by rw [hplen, length_tableOf], fun x => ?_⟩
  rw [← eval_ofCoeffs, ← UniPoly.toPolynomial, hpoly, Polynomial.eval_mul, eval_linear_one]

end Finish

/-! ## The direct sum of a round -/

theorem bindAll_tableLow {G : List F → F} (hG : Affine G) (n : Nat) (z rs : List F) :
    DensePolynomial.bindAll .lowToHigh (tableLow G (n + rs.length) z) rs = tableLow G n (rs.reverse ++ z) := by
  induction rs generalizing z with
  | nil => rfl
  | cons r rs ih =>
    rw [DensePolynomial.bindAll, List.foldl_cons, List.length_cons, ← Nat.add_assoc, bind_tableLow hG,
      ← DensePolynomial.bindAll, ih, List.reverse_cons, List.append_assoc]
    rfl

theorem mleOf_const_mul (n : Nat) (k : F) (f : Nat → F) (x : List F) :
    mleOf n (fun j => k * f j) x = k * mleOf n f x := by
  rw [mleOf, mleOf, mul_sum]
  exact sum_congr rfl fun j _ => by ring

theorem mleOf_congr {n : Nat} {f g : Nat → F} (h : ∀ j < 2 ^ n, f j = g j) : mleOf n f = mleOf n g := by
  funext x
  exact sum_congr rfl fun j hj => by rw [h j (mem_range.mp hj)]

theorem getElem?_eqTable {w : List F} {k : Nat} (h : k < 2 ^ w.length) : (eqTable w)[k]? = .some (eqAt w k) := by
  rw [eqAt, List.getD_eq_getElem?_getD, List.getElem?_eq_getElem (by rwa [length_eqTable])]
  rfl

theorem tableLow_mleOf (n : Nat) (f : Nat → F) : tableLow (mleOf n f) n [] = tableOf (2 ^ n) f :=
  tableOf_congr fun i hi => by rw [List.append_nil, mleOf_bitsPoint f hi]

/-- The weights of a round are the equality polynomial with the first coordinates Boolean. -/
theorem boundTable_getD {w rs : List F} {n g : Nat} (hn : w.length = n + 1 + rs.length) (hg : g < 2 ^ n) (x : F) :
    (boundTable .lowToHigh 1 w (rs ++ [x])).getD g 0 = eqMle w (bitsPoint n g ++ x :: rs.reverse) := by
  have hrest : w.length - (rs ++ [x]).length = n := by
    rw [List.length_append, List.length_singleton]
    omega
  have htake : (w.take n).length = n := by
    rw [List.length_take]
    omega
  have hsplit : eqMle w (bitsPoint n g ++ x :: rs.reverse) =
      eqMle (w.take n) (bitsPoint n g) * eqMle (w.drop n) (x :: rs.reverse) := by
    rw [← eqMle_append (by rw [htake, length_bitsPoint]), List.take_append_drop]
  have hentry : eqAt (w.take n) g = eqMle (w.take n) (bitsPoint (w.take n).length g) :=
    eqAt_eq_eqMle (w.take n) (by rwa [htake])
  rw [htake] at hentry
  rw [boundTable_lowToHigh (by rw [List.length_append, List.length_singleton]; omega), hrest, hsplit, ← hentry,
    List.reverse_append, List.reverse_singleton, List.singleton_append, eqAt, one_mul,
    List.getD_eq_getElem?_getD, List.getElem?_map, List.getElem?_eq_getElem (by rwa [length_eqTable, htake]),
    Option.map_some, Option.getD_some, List.getD_eq_getElem _ _ (by rwa [length_eqTable, htake]), mul_comm]

theorem length_boundTable {w rs : List F} {n : Nat} (hn : w.length = n + 1 + rs.length) (x : F) :
    (boundTable .lowToHigh 1 w (rs ++ [x])).length = 2 ^ n := by
  rw [boundTable_lowToHigh (by rw [List.length_append, List.length_singleton]; omega), List.length_map, length_eqTable,
    List.length_take, List.length_append, List.length_singleton]
  congr 1
  omega

/-- The sum of a round over tables of affine functions is that of the direct sumcheck. -/
theorem roundSum_tableLow {Gs : List (List F → F)} (hG : ∀ G ∈ Gs, Affine G) {w rs : List F} {n : Nat}
    (hn : w.length = n + 1 + rs.length) (x : F) :
    roundSum 1 w rs (Gs.map fun G => tableLow G (n + 1) rs.reverse) x =
      cubeSum (fun c => eqMle w c * (Gs.map (· c)).prod) n (x :: rs.reverse) := by
  rw [roundSum, length_boundTable hn]
  refine sum_congr rfl fun g hg => ?_
  have hg := mem_range.mp hg
  rw [boundTable_getD hn hg, List.map_map]
  congr 2
  refine List.map_congr_left fun G hmem => ?_
  simp only [Function.comp_apply]
  rw [bind_tableLow (hG G hmem), tableLow, getD_tableOf hg]

/-! ## Rows and the equality polynomial -/

/-- The state of a prover over one-hot rows. -/
structure RaState (F C : Type) where
  raIPolys : List (RaPolynomial F)
  eqPoly : GruenSplitEqPolynomial F C

/-- `ingest_challenge`. -/
def RaState.ingestChallenge (s : RaState F C) (r : C) : Option (RaState F C) := do
  .some {
    raIPolys := ← s.raIPolys.mapM (RaPolynomial.bindParallel .lowToHigh · (Challenge.into r))
    eqPoly := ← s.eqPoly.bind r }

/-- The polynomials by the rows and the table of each. -/
structure RaRows (F : Type) where
  total : Nat
  indices : Nat → List (Option Nat)
  table : Nat → List F

namespace RaRows

variable (R : RaRows F)

/-- The state before any challenge. -/
def start (w : List C) : Option (RaState F C) := do
  .some {
    raIPolys := tableOf R.total fun i => RaPolynomial.new (R.indices i) (R.table i)
    eqPoly := ← GruenSplitEqPolynomial.newWithScaling w .lowToHigh .none }

/-- What a polynomial holds for a cycle. -/
def value (i j : Nat) : F := (entry (R.table i) (R.indices i) j).getD 0

/-- The multilinear extension of a polynomial. -/
def mle (n i : Nat) : List F → F := mleOf n (R.value i)

/-- The rows are as many as the Boolean points, at least eight, and within their tables. -/
structure Fits (n : Nat) : Prop where
  rounds : 3 ≤ n
  length : ∀ i < R.total, (R.indices i).length = 2 ^ n
  entries : ∀ i < R.total, ∀ j < 2 ^ n, (entry (R.table i) (R.indices i) j).isSome

/-- The state with the challenges of `z` bound and `n` variables left. -/
structure At (w : List C) (n : Nat) (z : List F) (s : RaState F C) : Prop where
  bound : ∃ cs : List C, z = (coordinates F cs).reverse ∧ n + cs.length = w.length ∧
    GruenSplitEqPolynomial.LowAt 1 w cs s.eqPoly ∧ ∃ polys, s.raIPolys = tableOf R.total polys ∧
      ∀ i < R.total, (RaPolynomial.new (R.indices i) (R.table i)).bindAll .lowToHigh (coordinates F cs) = .some (polys i)

variable {R} {w : List C} {n : Nat} {z : List F} {s : RaState F C}

theorem affine_mle (i : Nat) : Affine (R.mle n i) := affine_mleOf n (R.value i)

/-- What the rows show after the challenges is the multilinear extension. -/
theorem Fits.shows (h : R.Fits w.length) {i : Nat} (hi : i < R.total) {cs : List C} (hcs : n + cs.length = w.length) :
    ∃ q, (RaPolynomial.new (R.indices i) (R.table i)).bindAll .lowToHigh (coordinates F cs) = .some q ∧
      q.Shows (tableLow (R.mle w.length i) n (coordinates F cs).reverse) := by
  obtain ⟨k, hk⟩ : ∃ k, w.length = k + 3 := ⟨w.length - 3, by have := h.rounds; omega⟩
  have height : 2 ^ w.length = 8 * 2 ^ k := by rw [hk, pow_add]; ring
  have hvalue : ∀ j < 8 * 2 ^ k, entry (R.table i) (R.indices i) j = .some (R.value i j) := fun j hj => by
    obtain ⟨v, hv⟩ := Option.isSome_iff_exists.mp (h.entries i hi j (height ▸ hj))
    rw [value, hv, Option.getD_some]
  have hexact := RaPolynomial.exact_of_entries (by rw [h.length i hi, height]) .lowToHigh hvalue (coordinates F cs)
  obtain ⟨q, hq, hshows⟩ := hexact _ (List.prefix_refl _)
  refine ⟨q, hq, ?_⟩
  have hlow := bindAll_tableLow (affine_mle (R := R) (n := w.length) i) n [] (coordinates F cs)
  rw [length_coordinates, hcs, mle, tableLow_mleOf, List.append_nil, height] at hlow
  rwa [hlow] at hshows

theorem Fits.start_at (h : R.Fits w.length) : ∃ s, R.start w = .some s ∧ R.At w w.length [] s := by
  have hw : w ≠ [] := List.length_pos_iff.mp (by have := h.rounds; omega)
  obtain ⟨eqPoly, hnew, hlow⟩ := GruenSplitEqPolynomial.LowAt.new (F := F) hw .none
  refine ⟨⟨_, eqPoly⟩, ?_, ⟨[], rfl, rfl, hlow, _, rfl, fun i _ => rfl⟩⟩
  rw [start, hnew]
  rfl

theorem At.challenge (h : R.Fits w.length) (hs : R.At w (n + 1) z s) (r : C) :
    ∃ s', s.ingestChallenge r = .some s' ∧ R.At w n (Challenge.into r :: z) s' := by
  obtain ⟨cs, rfl, hcs, hlow, polys, hpolys, hbound⟩ := hs.bound
  obtain ⟨eqPoly, hbind, hnext⟩ := hlow.bind (by omega) r
  have hlength : n + (cs ++ [r]).length = w.length := by
    rw [List.length_append, List.length_singleton]
    omega
  have hstep : ∀ i < R.total, ∃ q, (polys i).bindParallel .lowToHigh (Challenge.into r) = .some q ∧
      (RaPolynomial.new (R.indices i) (R.table i)).bindAll .lowToHigh (coordinates F (cs ++ [r])) = .some q := by
    intro i hi
    obtain ⟨q, hq, -⟩ := h.shows hi hlength
    have happ : (RaPolynomial.new (R.indices i) (R.table i)).bindAll .lowToHigh (coordinates F (cs ++ [r])) =
        (polys i).bindParallel .lowToHigh (Challenge.into r) := by
      rw [coordinates, List.map_append, RaPolynomial.bindAll, List.foldlM_append, ← RaPolynomial.bindAll, ← coordinates,
        hbound i hi]
      simp
    exact ⟨q, happ ▸ hq, hq⟩
  have : Nonempty (RaPolynomial F) := ⟨.roundN []⟩
  choose! next hnextPolys hnextBound using hstep
  have hmap : s.raIPolys.mapM (RaPolynomial.bindParallel .lowToHigh · (Challenge.into r)) =
      .some (tableOf R.total next) := by
    rw [hpolys, tableOf, List.mapM_map]
    exact mapM_range hnextPolys
  refine ⟨⟨_, eqPoly⟩, ?_, ⟨cs ++ [r], ?_, hlength, hnext, next, rfl, hnextBound⟩⟩
  · rw [RaState.ingestChallenge, hmap, hbind]
    rfl
  · rw [coordinates, coordinates, List.map_append, List.reverse_append]
    rfl

/-- At the end a polynomial has its value at the challenges. -/
theorem At.claim (h : R.Fits w.length) (hs : R.At w 0 z s) {i : Nat} (hi : i < R.total) :
    (s.raIPolys[i]?).bind RaPolynomial.finalSumcheckClaim = .some (R.mle w.length i z) := by
  obtain ⟨cs, rfl, hcs, -, polys, hpolys, hbound⟩ := hs.bound
  obtain ⟨q, hq, hshows⟩ := h.shows hi hcs
  rw [hbound i hi] at hq
  cases hq
  rw [hpolys, getElem?_tableOf hi, Option.bind_some, hshows.claim (by rw [length_tableLow, pow_zero]), tableLow_zero]
  rfl

/-- What the fold reads in a round. -/
theorem At.reads (h : R.Fits w.length) (hs : R.At w (n + 1) z s) :
    ∃ cs current, z = (coordinates F cs).reverse ∧ n + 1 + cs.length = w.length ∧
      GruenSplitEqPolynomial.LowAt 1 w cs s.eqPoly ∧ s.eqPoly.getCurrentW = .some current ∧ current ∈ w ∧
      ∀ {d t : Nat}, t * d + d ≤ R.total → List.Forall₂ (fun mle table => table.length = 2 ^ (n + 1) ∧
        ReadsTable mle table) ((s.raIPolys.drop (t * d)).take d)
        ((tableOf d fun j => R.mle w.length (t * d + j)).map fun G => tableLow G (n + 1) z) := by
  obtain ⟨cs, rfl, hcs, hlow, polys, hpolys, hbound⟩ := hs.bound
  refine ⟨cs, _, rfl, hcs, hlow, hlow.getCurrentW (by omega), List.getElem_mem _, fun {d t} htotal => ?_⟩
  have hchunk : (s.raIPolys.drop (t * d)).take d = tableOf d fun j => polys (t * d + j) := by
    obtain ⟨rest, hrest⟩ : ∃ rest, R.total = t * d + (d + rest) := ⟨R.total - (t * d + d), by omega⟩
    rw [hpolys, hrest, tableOf_add, List.drop_left' length_tableOf, tableOf_add, List.take_left' length_tableOf]
  rw [hchunk, map_tableOf, tableOf, tableOf, List.forall₂_map_left_iff, List.forall₂_map_right_iff, List.forall₂_same]
  intro j hj
  have hi : t * d + j < R.total := by
    have := List.mem_range.mp hj
    omega
  obtain ⟨q, hq, hshows⟩ := h.shows hi hcs
  rw [hbound _ hi] at hq
  cases hq
  exact ⟨length_tableLow _ _ _, fun j hj => hshows.coeff j hj⟩

/-! ## A round -/

/-- What the direct sumcheck over products of `d` polynomials each sums. -/
def summand (R : RaRows F) (w : List C) (d nProducts : Nat) (c : List F) : F :=
  eqMle (coordinates F w) c * ∑ t ∈ range nProducts, (tableOf d fun j => R.mle w.length (t * d + j) c).prod

/-- The tables of a product. -/
def group (R : RaRows F) (m n d : Nat) (z : List F) (t : Nat) : List (List F) :=
  (tableOf d fun j => R.mle m (t * d + j)).map fun G => tableLow G n z

theorem length_group (R : RaRows F) (m n d : Nat) (z : List F) (t : Nat) : (R.group m n d z t).length = d := by
  rw [group, List.length_map, length_tableOf]

/-- The tables of a round, and its sum by the quotients of the products. -/
theorem At.round (h : R.Fits w.length) (hs : R.At w (n + 1) z s) {d nProducts : Nat}
    (htotal : R.total = nProducts * d) :
    ∃ current eOut eIn a b, current ∈ w ∧ s.eqPoly.getCurrentW = .some current ∧ s.eqPoly.eOutCurrent = .some eOut ∧
      s.eqPoly.eInCurrent = .some eIn ∧ eOut.length = 2 ^ a ∧ eIn.length = 2 ^ b ∧
      (∀ t < nProducts, List.Forall₂ (fun mle table => table.length = 2 * (eOut.length * eIn.length) ∧
        ReadsTable mle table) ((s.raIPolys.drop (t * d)).take d) (R.group w.length (n + 1) d z t)) ∧
      ∀ x, eqFactor (Challenge.into current) x * (quotients s.eqPoly.currentScalar (tensor eOut eIn)
        (R.group w.length (n + 1) d z) nProducts).eval x = cubeSum (R.summand w d nProducts) n (x :: z) := by
  obtain ⟨cs, current, rfl, hcs, hlow, hcurrent, hmem, hreads⟩ := hs.reads h
  obtain ⟨eOut, eIn, a, b, hout, hin, hlenOut, hlenIn, hab, hbound⟩ :=
    hlow.boundTable_concat hcurrent (by omega)
  have hhalf : 2 ^ (n + 1) = 2 * (eOut.length * eIn.length) := by
    rw [hlenOut, hlenIn, show n + 1 = a + b + 1 by omega, pow_succ, pow_add]
    ring
  rw [hhalf] at hreads
  have hlen : ∀ t, ∀ table ∈ R.group w.length (n + 1) d (coordinates F cs).reverse t,
      table.length = 2 * (eOut.length * eIn.length) := by
    intro t table htable
    obtain ⟨G, -, rfl⟩ := List.mem_map.mp htable
    rw [length_tableLow, hhalf]
  refine ⟨current, eOut, eIn, a, b, hmem, hcurrent, hout, hin, hlenOut, hlenIn, fun t ht => hreads ?_, fun x => ?_⟩
  · rw [htotal, ← Nat.succ_mul]
    exact Nat.mul_le_mul_right d ht
  · have hterm : ∀ t, eqFactor (Challenge.into current) x * (quotient s.eqPoly.currentScalar (tensor eOut eIn)
        (R.group w.length (n + 1) d (coordinates F cs).reverse t)).eval x =
        cubeSum (fun c => eqMle (coordinates F w) c * (tableOf d fun j => R.mle w.length (t * d + j) c).prod) n
          (x :: (coordinates F cs).reverse) := by
      intro t
      rw [← roundSum_eq (hbound x) (hlen t), group, roundSum_tableLow]
      · simp only [map_tableOf]
      · intro G hG
        obtain ⟨j, -, rfl⟩ := List.mem_map.mp hG
        exact affine_mle _
      · rw [length_coordinates, length_coordinates, hcs]
    rw [quotients, Polynomial.eval_finsetSum, mul_sum, sum_congr rfl fun t _ => hterm t]
    simp only [cubeSum, summand, mul_sum]
    exact sum_comm

variable [DecidableEq F]

/-- **A round over several products** is that of the direct sumcheck, no coordinate of the point
being one. -/
theorem At.sumOfProducts_message (h : R.Fits w.length) (hs : R.At w (n + 1) z s) {d nProducts : Nat} (hd : 1 ≤ d)
    (htotal : R.total = nProducts * (d + 1)) (hw : ∀ c ∈ w, (1 : F) - Challenge.into c ≠ 0)
    (hchar : ∀ k, 0 < k → k < d + 1 → (k : F) ≠ 0) {evalProd : List (F × F) → List F}
    (heval : ∀ pairs, pairs.length = d + 1 → evalProd pairs = grid pairs) :
    ∃ p, (computeMlesSumOfProductsEvalsD (d + 1) evalProd s.raIPolys nProducts s.eqPoly).bind
        (finishMlesProductSumFromEvals · (cubeSum (R.summand w (d + 1) nProducts) (n + 1) z) s.eqPoly) = .some p ∧
      p.Is (d + 2) fun x => cubeSum (R.summand w (d + 1) nProducts) n (x :: z) := by
  obtain ⟨current, eOut, eIn, a, b, hmem, hcurrent, hout, hin, hlenOut, hlenIn, hreads, hround⟩ := hs.round h htotal
  rw [computeMlesSumOfProductsEvalsD_eq hout hin hlenOut hlenIn (fun t _ => length_group _ _ _ _ _ _) heval hreads,
    Option.bind_some]
  obtain ⟨p, hp, his⟩ := finishMlesProductSum_of_quotient hcurrent (hw current hmem) hd
    (natDegree_quotients_le fun t _ => length_group R w.length (n + 1) (d + 1) z t) hchar
    (cubeSum_succ (R.summand w (d + 1) nProducts) n z |>.trans (by rw [hround, hround]))
  exact ⟨p, hp, his.length, fun x => (his.value x).trans (hround x)⟩

/-- **A round over one product** is that of the direct sumcheck. -/
theorem At.product_message (h : R.Fits w.length) (hs : R.At w (n + 1) z s) (htwo : 2 ≤ R.total)
    (hw : ∀ c ∈ w, (1 : F) - Challenge.into c ≠ 0) (hchar : ∀ k, 0 < k → k < R.total → (k : F) ≠ 0) :
    ∃ p, computeMlesProductSum s.raIPolys (cubeSum (R.summand w R.total 1) (n + 1) z) s.eqPoly = .some p ∧
      p.Is (R.total + 1) fun x => cubeSum (R.summand w R.total 1) n (x :: z) := by
  obtain ⟨d, hd⟩ : ∃ d, R.total = d + 1 := ⟨R.total - 1, by omega⟩
  obtain ⟨current, eOut, eIn, a, b, hmem, hcurrent, hout, hin, hlenOut, hlenIn, hreads, hround⟩ :=
    hs.round h (show R.total = 1 * R.total from (Nat.one_mul _).symm)
  have hall : (s.raIPolys.drop (0 * R.total)).take R.total = s.raIPolys := by
    obtain ⟨cs, -, -, -, polys, hpolys, -⟩ := hs.bound
    rw [Nat.zero_mul, List.drop_zero, hpolys, List.take_of_length_le length_tableOf.le]
  have hfirst := hreads 0 (by omega)
  rw [hall] at hfirst
  have hgroup := (length_group R w.length (n + 1) R.total z 0).trans hd
  have hquotient : quotients s.eqPoly.currentScalar (tensor eOut eIn) (R.group w.length (n + 1) R.total z) 1 =
      quotient s.eqPoly.currentScalar (tensor eOut eIn) (R.group w.length (n + 1) R.total z 0) := by
    rw [quotients, sum_range_one]
  rw [computeMlesProductSum, computeMlesProductSumEvals_eq hout hin hlenOut hlenIn hgroup hfirst, Option.bind_eq_bind,
    Option.bind_some]
  obtain ⟨p, hp, his⟩ := finishMlesProductSum_of_quotient hcurrent (hw current hmem) (d := d) (by omega)
    (hgroup ▸ natDegree_quotient_le s.eqPoly.currentScalar (tensor eOut eIn) (R.group w.length (n + 1) R.total z 0))
    (fun k hpos hk => hchar k hpos (hd ▸ hk))
    (cubeSum_succ (R.summand w R.total 1) n z |>.trans (by rw [← hround, ← hround, hquotient]))
  refine ⟨p, hp, by rw [his.length, hd], fun x => (his.value x).trans ?_⟩
  rw [← hround, hquotient]

end RaRows

end LightningJolt
