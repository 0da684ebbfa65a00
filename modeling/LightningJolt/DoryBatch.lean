/-
Openings of several committed polynomials as one: the random linear combination of their
commitments, of their row commitments and of the polynomials themselves.
-/
import LightningJolt.Buckets
import LightningJolt.DoryCompleteness

namespace LightningJolt.Dory

open Finset

/-! ## Linear combinations -/

section Combination

variable {F A B C : Type} [Field F] [AddCommGroup A] [Module F A] [AddCommGroup B] [Module F B] [AddCommGroup C]
  [Module F C]

/-- The combination of vectors at one position, a missing entry counting as zero. -/
def combination (terms : List (F × List A)) (i : Nat) : A := (terms.map fun x => x.1 • x.2.getD i 0).sum

@[simp] theorem combination_nil (i : Nat) : combination ([] : List (F × List A)) i = 0 := rfl

@[simp] theorem combination_cons (x : F × List A) (terms : List (F × List A)) (i : Nat) :
    combination (x :: terms) i = x.1 • x.2.getD i 0 + combination terms i := by simp [combination]

theorem combination_zip_map {P : Type} (coeffs : List F) (ps : List P) (f : P → List A) (i : Nat) :
    combination (coeffs.zip (ps.map f)) i = ((coeffs.zip ps).map fun x => x.1 • (f x.2).getD i 0).sum := by
  rw [combination, List.zip_map_right, List.map_map]
  rfl

/-- A linear map of each of some positions, summed over them. -/
theorem sum_combination (position : Nat → Nat) (n : Nat) (f : Nat → A →ₗ[F] B) (terms : List (F × List A)) :
    ∑ i ∈ range n, f i (combination terms (position i)) =
      (terms.map fun x => x.1 • ∑ i ∈ range n, f i (x.2.getD (position i) 0)).sum := by
  induction terms with
  | nil => simp
  | cons x terms ih => simp [sum_add_distrib, ih, smul_sum]

end Combination

variable {S F G1 G2 GT : Type} [Field F] [AddCommGroup G1] [Module F G1] [AddCommGroup G2] [Module F G2]
  [AddCommGroup GT] [Module F GT]

/-! ## Row commitments by buckets -/

/-- The digits of four bits of a scalar's four limbs. -/
def scalarDigits (bigint : Nat) : List Nat :=
  (List.range 64).map fun i => (bigint / 2 ^ (64 * (i / 16)) % 2 ^ 64) >>> (i % 16 * 4) &&& 0xF

/-- The points of a row into the buckets of their digits. -/
def scatter (ownedHints : List (List G1)) (digits : List Nat) (r : Nat) : Outcome (List G1) :=
  digits.zipIdx.foldlM
    (fun buckets x =>
      if 0 < x.1 then do
        let row ← .ofOption ownedHints[x.2]?
        let point ← .ofOption row[r]?
        return buckets.modify (x.1 - 1) (· + point)
      else return buckets)
    (List.replicate 15 0)

/-- A window of a row. -/
def window (ownedHints : List (List G1)) (scalarsDigits : List (List Nat)) (r : Nat) (result : G1) (w : Nat) :
    Outcome G1 := do
  let double (g : G1) : G1 := g + g
  let result := if w ≠ 63 then double (double (double (double result))) else result
  let buckets ← scatter ownedHints (scalarsDigits.map (·.getD w 0)) r
  return (buckets.foldr Buckets.running (0, result)).2

/-- `combine_hints`, with the integer of a coefficient. -/
def combineHints (intoBigint : F → Nat) (hints : List (List G1)) (coeffs : List F) (numRows : Nat) :
    Outcome (List G1) :=
  let ownedHints := hints.map fun h => if h.length < numRows then resize h numRows 0 else h
  let scalarsDigits := coeffs.map fun c => scalarDigits (intoBigint c)
  (List.range numRows).mapM fun r =>
    (List.range 64).reverse.foldlM (window ownedHints scalarsDigits r) 0

theorem scalarDigits_getD {bigint w : Nat} (hw : w < 64) : (scalarDigits bigint).getD w 0 = bigint / 16 ^ w % 16 := by
  have hlow : w % 16 * 4 + 4 ≤ 64 := by omega
  rw [scalarDigits, getD_map_range hw, show (0xF : Nat) = 2 ^ 4 - 1 by rfl, Nat.and_two_pow_sub_one_eq_mod,
    show 16 = 2 ^ 4 by rfl, ← pow_mul]
  refine Nat.eq_of_testBit_eq fun i => ?_
  simp only [Nat.testBit_mod_two_pow, Nat.testBit_shiftRight, Nat.testBit_div_two_pow]
  by_cases hi : i < 4
  · have hin : w % 16 * 4 + i < 64 := by omega
    have hsum : w % 16 * 4 + i + 64 * (w / 16) = i + 4 * w := by omega
    simp [hi, hin, hsum]
  · simp [hi]

/-- The row of every hint. -/
structure RowPoints (ownedHints : List (List G1)) (n r : Nat) (points : Nat → G1) : Prop where
  get : ∀ i < n, ∃ row, ownedHints[i]? = .some row ∧ row[r]? = .some (points i)

theorem scatter_eq {ownedHints : List (List G1)} {digits : List Nat} {r : Nat} {points : Nat → G1}
    (hpoints : RowPoints ownedHints digits.length r points) (hdigits : ∀ d ∈ digits, d < 16) :
    ∃ buckets, scatter ownedHints digits r = .ok buckets ∧
      Buckets.weighted 1 buckets = ∑ i ∈ range digits.length, digits.getD i 0 • points i := by
  have hfold (ds : List Nat) (k : Nat) (start : List G1) (hstart : start.length = 15) (hds : ∀ d ∈ ds, d < 16)
      (hget : ∀ i < ds.length, ∃ row, ownedHints[k + i]? = .some row ∧ row[r]? = .some (points (k + i))) :
      ∃ buckets, (ds.zipIdx k).foldlM
          (fun (buckets : List G1) (x : Nat × Nat) =>
            if 0 < x.1 then do
              let row ← Outcome.ofOption ownedHints[x.2]?
              let point ← Outcome.ofOption row[r]?
              return buckets.modify (x.1 - 1) (· + point)
            else return buckets) start = .ok buckets ∧
        Buckets.weighted 1 buckets = Buckets.weighted 1 start + ∑ i ∈ range ds.length, ds.getD i 0 • points (k + i) := by
    induction ds generalizing k start with
    | nil => exact ⟨start, rfl, by simp⟩
    | cons d ds ih =>
      have hrest (i : Nat) (hi : i < ds.length) :
          ∃ row, ownedHints[k + 1 + i]? = .some row ∧ row[r]? = .some (points (k + 1 + i)) := by
        rw [Nat.add_assoc, Nat.add_comm 1 i]
        exact hget (i + 1) (by simpa using hi)
      have hds' : ∀ d ∈ ds, d < 16 := fun d hd => hds d (List.mem_cons_of_mem _ hd)
      have hd := hds d (List.mem_cons_self ..)
      obtain ⟨row, hrow, hpoint⟩ := hget 0 (by simp)
      rw [List.zipIdx_cons, List.foldlM_cons, List.length_cons, sum_range_succ']
      simp only [Nat.add_zero] at hrow hpoint
      by_cases hzero : 0 < d
      · obtain ⟨buckets, hbuckets, hweighted⟩ := ih (k + 1) (start.modify (d - 1) (· + points k)) (by simpa) hds' hrest
        refine ⟨buckets, ?_, ?_⟩
        · simpa [hzero, hrow, hpoint] using hbuckets
        · rw [hweighted, Buckets.weighted_modify _ _ (by omega), Nat.add_sub_cancel' hzero]
          simp [Nat.add_assoc, Nat.add_comm 1]
          abel
      · obtain rfl : d = 0 := by omega
        obtain ⟨buckets, hbuckets, hweighted⟩ := ih (k + 1) start hstart hds' hrest
        refine ⟨buckets, by simpa using hbuckets, ?_⟩
        simp [hweighted, Nat.add_assoc, Nat.add_comm 1]
  obtain ⟨buckets, hbuckets, hweighted⟩ := hfold digits 0 (List.replicate 15 0) (by simp) hdigits
    (by simpa using hpoints.get)
  exact ⟨buckets, hbuckets, by simpa [Buckets.weighted_zeros] using hweighted⟩

/-- Numbers of sixty-four digits have nothing above their windows. -/
theorem sum_above (ns : List Nat) (hns : ∀ k ∈ ns, k < 16 ^ 64) (points : Nat → G1) :
    ∑ i ∈ range ns.length, (ns.getD i 0 / 16 ^ 64) • points i = 0 := by
  refine sum_eq_zero fun i hi => ?_
  have hmem : ns.getD i 0 ∈ ns := by
    rw [List.getD_eq_getElem _ _ (mem_range.mp hi)]
    exact List.getElem_mem _
  rw [Nat.div_eq_of_lt (hns _ hmem), zero_smul]

/-- The windows from one down, on what the higher windows gave. -/
theorem windows_eq {ownedHints : List (List G1)} {ns : List Nat} {r : Nat} {points : Nat → G1}
    (hpoints : RowPoints ownedHints ns.length r points) (hns : ∀ k ∈ ns, k < 16 ^ 64) {n : Nat} (hn : n ≤ 64) :
    (List.range n).reverse.foldlM (window ownedHints (ns.map scalarDigits) r)
        (∑ i ∈ range ns.length, (ns.getD i 0 / 16 ^ n) • points i) =
      .ok (∑ i ∈ range ns.length, ns.getD i 0 • points i) := by
  induction n with
  | zero => simp
  | succ w ih =>
    have hdigits : (ns.map scalarDigits).map (·.getD w 0) = ns.map fun k => k / 16 ^ w % 16 := by
      rw [List.map_map]
      exact List.map_congr_left fun k _ => scalarDigits_getD (by omega)
    have hget (i : Nat) : (ns.map fun k => k / 16 ^ w % 16).getD i 0 = ns.getD i 0 / 16 ^ w % 16 := by
      simp only [List.getD_eq_getElem?_getD, List.getElem?_map]
      cases ns[i]? <;> simp
    have hpoints' : RowPoints ownedHints (ns.map fun k => k / 16 ^ w % 16).length r points := by simpa using hpoints
    obtain ⟨buckets, hbuckets, hweighted⟩ := scatter_eq hpoints' (by simp; omega)
    -- the window at the top finds nothing to double
    have hdouble (g : G1) (hg : w = 63 → g = 0) :
        (if w ≠ 63 then g + g + (g + g) + (g + g + (g + g)) + (g + g + (g + g) + (g + g + (g + g))) else g) = 16 • g := by
      by_cases hw : w = 63
      · simp [hg hw]
      · rw [if_pos hw]
        abel
    have htop (hw : w = 63) : ∑ i ∈ range ns.length, (ns.getD i 0 / 16 ^ (w + 1)) • points i = 0 := by
      rw [hw]
      exact sum_above ns hns points
    rw [List.range_succ, List.reverse_append, List.reverse_singleton, List.singleton_append, List.foldlM_cons, window,
      hdigits, hbuckets]
    simp only [Outcome.ok_bind, Outcome.pure_eq, Buckets.foldr_running]
    rw [hdouble _ htop, hweighted]
    simp only [hget, List.length_map]
    rw [Buckets.sum_window, ih (by omega)]

/-- The entries of a hint that is filled up to the number of rows. -/
theorem getElem?_owned {h : List G1} {numRows r : Nat} (hr : r < numRows) :
    (if h.length < numRows then resize h numRows 0 else h)[r]? = .some (h.getD r 0) := by
  split
  case isTrue hlt =>
    rw [resize, List.take_of_length_le (by omega), List.getElem?_append]
    split
    case isTrue hin => simp [hin]
    case isFalse hout =>
      rw [List.getElem?_replicate_of_lt (by omega), List.getD_eq_default _ _ (by omega)]
  case isFalse hge =>
    have hin : r < h.length := by omega
    simp [hin]

theorem sum_bigints {intoBigint : F → Nat} (hcast : ∀ a, ((intoBigint a : Nat) : F) = a) {coeffs : List F}
    {hints : List (List G1)} (hlen : coeffs.length ≤ hints.length) (r : Nat) :
    ∑ i ∈ range coeffs.length, (coeffs.map intoBigint).getD i 0 • (hints.getD i []).getD r 0 =
      combination (coeffs.zip hints) r := by
  induction coeffs generalizing hints with
  | nil => simp
  | cons c coeffs ih =>
    cases hints with
    | nil => simp at hlen
    | cons h hints =>
      have hlen : coeffs.length ≤ hints.length := by simpa using hlen
      have hrest := ih hlen
      rw [List.length_cons, sum_range_succ', List.zip_cons_cons, combination_cons, ← hrest]
      simp only [List.map_cons, List.getD_cons_succ, List.getD_cons_zero]
      rw [← Nat.cast_smul_eq_nsmul F, hcast, add_comm]

/-- **The bucket method combines the hints**: each row of the result is the combination of that row of
all hints, where a hint that is too short counts as zero. -/
theorem combineHints_eq {intoBigint : F → Nat} (hcast : ∀ a, ((intoBigint a : Nat) : F) = a)
    (hlt : ∀ a, intoBigint a < 2 ^ 256) {hints : List (List G1)} {coeffs : List F}
    (hlen : coeffs.length ≤ hints.length) (numRows : Nat) :
    combineHints intoBigint hints coeffs numRows =
      .ok ((List.range numRows).map (combination (coeffs.zip hints))) := by
  refine Outcome.mapM_ok fun r hr => ?_
  have hr := List.mem_range.mp hr
  have hpoints : RowPoints (hints.map fun h => if h.length < numRows then resize h numRows 0 else h)
      (coeffs.map intoBigint).length r (fun i => (hints.getD i []).getD r 0) := by
    constructor
    intro i hi
    have hi : i < hints.length := by simp at hi; omega
    refine ⟨_, by simp [hi]; rfl, ?_⟩
    rw [List.getD_eq_getElem _ _ hi]
    exact getElem?_owned hr
  have hns : ∀ k ∈ coeffs.map intoBigint, k < 16 ^ 64 := by
    simp only [List.mem_map, forall_exists_index, and_imp, forall_apply_eq_imp_iff₂]
    exact fun c _ => hlt c
  have hrun := windows_eq hpoints hns le_rfl
  rw [sum_above _ hns, List.map_map, List.length_map, sum_bigints hcast hlen] at hrun
  exact hrun

/-! ## The plain combinations -/

/-- `combine_row_commitments`. -/
def combineRowCommitments (rowCommitments : List (List G1)) (coeffs : List F) : Outcome (List G1) := do
  .assert (rowCommitments.length = coeffs.length)
  match rowCommitments with
  | [] => return []
  | first :: _ =>
    let numRows := first.length
    (coeffs.zip rowCommitments).foldlM
      (fun combined x => do
        .assert (x.2.length = numRows)
        return List.zipWith (fun g row => g + x.1 • row) combined x.2)
      (List.replicate numRows 0)

/-- `combine_commitments`. -/
def combineCommitments (commitments : List GT) (coeffs : List F) : Outcome GT := do
  .assert (commitments.length = coeffs.length)
  return ((coeffs.zip commitments).map fun x => x.1 • x.2).sum

theorem foldlM_combine {numRows : Nat} (terms : List (F × List G1)) (hterms : ∀ x ∈ terms, x.2.length = numRows)
    (f : Nat → G1) :
    terms.foldlM
      (fun combined x => do
        Outcome.assert (x.2.length = numRows)
        return List.zipWith (fun g row => g + x.1 • row) combined x.2) ((List.range numRows).map f) =
      .ok ((List.range numRows).map fun i => f i + combination terms i) := by
  induction terms generalizing f with
  | nil => simp
  | cons x terms ih =>
    have hx := hterms x (List.mem_cons_self ..)
    have hstep : List.zipWith (fun g row => g + x.1 • row) ((List.range numRows).map f) x.2 =
        (List.range numRows).map fun i => f i + x.1 • x.2.getD i 0 := by
      refine List.ext_getElem (by simp [hx]) fun i h1 h2 => ?_
      have hi : i < x.2.length := by simp at h2; omega
      simp [hi]
    rw [List.foldlM_cons, Outcome.assert_true hx, Outcome.ok_bind, Outcome.pure_eq, Outcome.ok_bind, hstep,
      ih fun y hy => hterms y (List.mem_cons_of_mem _ hy)]
    simp [add_assoc]

/-- **The bucket method agrees with the plain combination** of row commitments of one length. -/
theorem combineHints_plain {intoBigint : F → Nat} (hcast : ∀ a, ((intoBigint a : Nat) : F) = a)
    (hlt : ∀ a, intoBigint a < 2 ^ 256) {hints : List (List G1)} {coeffs : List F} {numRows : Nat}
    (hlen : hints.length = coeffs.length) (hrows : ∀ h ∈ hints, h.length = numRows) (hne : hints ≠ []) :
    combineHints intoBigint hints coeffs numRows = combineRowCommitments hints coeffs := by
  unfold combineRowCommitments
  rw [combineHints_eq hcast hlt hlen.ge, Outcome.assert_true hlen, Outcome.ok_bind]
  cases hints with
  | nil => exact absurd rfl hne
  | cons first hints =>
    have hfirst := hrows first (List.mem_cons_self ..)
    have hterms : ∀ x ∈ coeffs.zip (first :: hints), x.2.length = first.length := by
      intro x hx
      rw [hfirst]
      exact hrows _ (List.of_mem_zip hx).2
    have hzeros : List.replicate first.length (0 : G1) = (List.range first.length).map fun _ => 0 := by
      simp [List.map_const']
    dsimp only
    rw [hzeros, foldlM_combine _ hterms, hfirst]
    simp

theorem combineHints_plain_two :
    combineHints ZMod.val [[1, 2], [2, (2 : ZMod 3)]] [2, (1 : ZMod 3)] 2 =
      combineRowCommitments [[1, 2], [2, 2]] [2, (1 : ZMod 3)] :=
  combineHints_plain (fun a => ZMod.natCast_zmod_val a) (fun a => (ZMod.val_lt a).trans (by norm_num)) rfl
    (by simp) (by simp)

/-! ## The joint polynomial -/

/-- `DensePolynomial::linear_combination`, on the coefficients of the polynomials. -/
def linearCombination (polynomials : List (List F)) (coefficients : List F) : Outcome (List F) := do
  let maxLength ← .ofOption (polynomials.map List.length).max?
  return (coefficients.zip polynomials).foldl
    (fun result x =>
      List.zipWith (fun r v => r + v * x.1) (result.take x.2.length) x.2 ++ result.drop x.2.length)
    (List.replicate maxLength 0)

theorem foldl_linearCombination {n : Nat} (terms : List (F × List F)) (hterms : ∀ x ∈ terms, x.2.length ≤ n)
    (f : Nat → F) :
    terms.foldl
      (fun result x =>
        List.zipWith (fun r v => r + v * x.1) (result.take x.2.length) x.2 ++ result.drop x.2.length)
      ((List.range n).map f) = (List.range n).map fun i => f i + combination terms i := by
  induction terms generalizing f with
  | nil => simp
  | cons x terms ih =>
    have hx := hterms x (List.mem_cons_self ..)
    have hstep : List.zipWith (fun r v => r + v * x.1) (((List.range n).map f).take x.2.length) x.2 ++
        ((List.range n).map f).drop x.2.length = (List.range n).map fun i => f i + x.1 • x.2.getD i 0 := by
      refine List.ext_getElem (by simp; omega) fun i h1 h2 => ?_
      have hi : i < n := by simpa using h2
      by_cases hin : i < x.2.length
      · rw [List.getElem_append_left (by simp; omega)]
        simp [hin, mul_comm]
      · rw [List.getElem_append_right (by simp; omega)]
        have hpos : x.2.length + (i - min x.2.length n) = i := by omega
        simp [hpos, hin]
    rw [List.foldl_cons, hstep, ih fun y hy => hterms y (List.mem_cons_of_mem _ hy)]
    simp [add_assoc]

namespace ArkworksPolynomial

/-- The sum that commits to a row, also past the last one. -/
theorem getD_rows {poly : ArkworksPolynomial F} {nu sigma : Nat} (h : poly.numVars = nu + sigma) (gens : List G1)
    (i : Nat) :
    (poly.rows gens nu sigma).getD i 0 =
      ∑ j ∈ range (2 ^ sigma), poly.coefficients.getD (i * 2 ^ sigma + j) 0 • (gens.take (2 ^ sigma)).getD j 0 := by
  by_cases hi : i < 2 ^ nu
  · rw [rows, getD_map_range hi, msm_eq_sum (n := 2 ^ sigma) (by simp)]
    exact sum_congr rfl fun j hj => by rw [getD_row (mem_range.mp hj)]
  · have hlen : poly.coefficients.length ≤ i * 2 ^ sigma := by
      rw [poly.length_eq, h, pow_add]
      exact Nat.mul_le_mul_right _ (by omega)
    rw [List.getD_eq_default _ _ (by simpa using hi)]
    refine (sum_eq_zero fun j _ => ?_).symm
    rw [List.getD_eq_default _ _ (by omega), zero_smul]

/-- The second tier of a commitment, over as many rows as a larger polynomial has. -/
theorem dot_rows {pair : G1 →ₗ[F] G2 →ₗ[F] GT} {poly : ArkworksPolynomial F} {k nu sigma : Nat} (hk : k ≤ nu)
    (gens : List G1) (gens2 : List G2) :
    dot pair (poly.rows gens k sigma) (gens2.take (2 ^ k)) =
      ∑ i ∈ range (2 ^ nu), pair ((poly.rows gens k sigma).getD i 0) ((gens2.take (2 ^ nu)).getD i 0) := by
  have hpow : 2 ^ k ≤ 2 ^ nu := Nat.pow_le_pow_right (by omega) hk
  rw [dot_eq_sum (n := 2 ^ nu) pair (by simpa using hpow)]
  refine sum_congr rfl fun i hi => ?_
  have hi := mem_range.mp hi
  by_cases hin : i < 2 ^ k
  · simp only [List.getD_eq_getElem?_getD, List.getElem?_take, if_pos hin, if_pos hi]
  · rw [List.getD_eq_default (poly.rows gens k sigma) _ (by simpa using hin), map_zero, LinearMap.zero_apply,
      LinearMap.zero_apply]

theorem getD_tensorBasis_zero (point : List F) : (tensorBasis point).getD 0 0 = (point.map (1 - ·)).prod := by
  induction point using List.reverseRecOn with
  | nil => rfl
  | append_singleton point p ih =>
    have hpos : 0 < (tensorBasis point).length := by
      rw [length_tensorBasis]
      exact Nat.two_pow_pos _
    rw [List.getD_eq_getElem _ _ hpos] at ih
    rw [tensorBasis_snoc, List.getD_append _ _ _ _ (by simp),
      List.getD_eq_getElem _ _ (by simp), List.getElem_map, ih]
    simp

/-- The value of a polynomial, over as many entries as a larger point has. -/
theorem evaluate_take {poly : ArkworksPolynomial F} {point : List F} (h : poly.numVars ≤ point.length) :
    ∃ y, poly.evaluate (point.take poly.numVars) = .ok y ∧
      y * ((point.drop poly.numVars).map (1 - ·)).prod =
        ∑ i ∈ range (2 ^ point.length), poly.coefficients.getD i 0 * (tensorBasis point).getD i 0 := by
  have hlow : (point.take poly.numVars).length = poly.numVars := by simp [h]
  have hpow : 2 ^ poly.numVars ≤ 2 ^ point.length := Nat.pow_le_pow_right (by omega) h
  refine ⟨_, evaluate_basis hlow, ?_⟩
  rw [msm_eq_sum (n := 2 ^ point.length) (by rwa [length_tensorBasis, hlow]), sum_mul]
  refine sum_congr rfl fun i _ => ?_
  by_cases hi : i < 2 ^ poly.numVars
  · have happend := getD_tensorBasis_append (point.take poly.numVars) (point.drop poly.numVars) (i := 0) (j := i)
      (by rwa [hlow]) (Nat.two_pow_pos _)
    rw [List.take_append_drop, Nat.zero_mul, Nat.zero_add, getD_tensorBasis_zero] at happend
    rw [happend, smul_eq_mul, mul_assoc]
  · rw [List.getD_eq_default poly.coefficients _ (by rw [poly.length_eq]; omega), zero_smul, zero_mul, zero_mul]

end ArkworksPolynomial

section Joint

variable {pair : G1 →ₗ[F] G2 →ₗ[F] GT} {setup : ProverSetup G1 G2 GT} {polys : List (ArkworksPolynomial F)}
  {coeffs : List F} {joint : ArkworksPolynomial F} {m n nu sigma : Nat}

/-- The joint polynomial has the size of the largest, its coefficients are combined entry by entry. -/
theorem linearCombination_eq (hpolys : ∀ p ∈ polys, p.numVars ≤ n) (hmax : ∃ p ∈ polys, p.numVars = n)
    (coeffs : List F) :
    ∃ joint : ArkworksPolynomial F, joint.numVars = n ∧
      linearCombination (polys.map (·.coefficients)) coeffs = .ok joint.coefficients ∧
      ∀ i < 2 ^ n, joint.coefficients.getD i 0 = combination (coeffs.zip (polys.map (·.coefficients))) i := by
  have hlen : ∀ xs ∈ polys.map (·.coefficients), xs.length ≤ 2 ^ n := by
    simp only [List.mem_map, forall_exists_index, and_imp, forall_apply_eq_imp_iff₂]
    intro p hp
    rw [p.length_eq]
    exact Nat.pow_le_pow_right (by omega) (hpolys p hp)
  have hmaximum : ((polys.map (·.coefficients)).map List.length).max? = .some (2 ^ n) := by
    rw [List.max?_eq_some_iff]
    constructor
    · obtain ⟨p, hp, hn⟩ := hmax
      simp only [List.map_map, List.mem_map, Function.comp_apply]
      exact ⟨p, hp, by rw [p.length_eq, hn]⟩
    · simpa using hlen
  refine ⟨{
    coefficients := (List.range (2 ^ n)).map (combination (coeffs.zip (polys.map (·.coefficients))))
    numVars := n
    length_eq := by simp }, rfl, ?_, fun i hi => getD_map_range hi⟩
  have hzeros : List.replicate (2 ^ n) (0 : F) = (List.range (2 ^ n)).map fun _ => 0 := by simp [List.map_const']
  rw [linearCombination, hmaximum, Outcome.ofOption_some, Outcome.ok_bind, hzeros,
    foldl_linearCombination _ fun x hx => hlen _ (List.of_mem_zip hx).2]
  simp

/-- What the joint polynomial and those it combines have in common. -/
structure Combines (joint : ArkworksPolynomial F) (polys : List (ArkworksPolynomial F)) (coeffs : List F)
    (nu sigma : Nat) : Prop where
  numVars_eq : joint.numVars = nu + sigma
  le_numVars : ∀ p ∈ polys, sigma ≤ p.numVars
  numVars_le : ∀ p ∈ polys, p.numVars ≤ nu + sigma
  getD_eq : ∀ i < 2 ^ (nu + sigma),
    joint.coefficients.getD i 0 = combination (coeffs.zip (polys.map (·.coefficients))) i

/-- The rows of the joint polynomial's commitment. -/
theorem Combines.rows_eq (h : Combines joint polys coeffs nu sigma) (gens : List G1) :
    joint.rows gens nu sigma = (List.range (2 ^ nu)).map
      (combination (coeffs.zip (polys.map fun p => p.rows gens (p.numVars - sigma) sigma))) := by
  refine List.ext_getElem (by simp) fun i h1 h2 => ?_
  have hi : i < 2 ^ nu := by simpa using h1
  rw [← List.getD_eq_getElem _ 0 h1, List.getElem_map, List.getElem_range, ArkworksPolynomial.getD_rows h.numVars_eq,
    combination_zip_map]
  have hentry (j : Nat) (hj : j ∈ range (2 ^ sigma)) :
      joint.coefficients.getD (i * 2 ^ sigma + j) 0 • (gens.take (2 ^ sigma)).getD j 0 =
        (LinearMap.lsmul F G1).flip ((gens.take (2 ^ sigma)).getD j 0)
          (combination (coeffs.zip (polys.map (·.coefficients))) (i * 2 ^ sigma + j)) := by
    have hj := mem_range.mp hj
    rw [h.getD_eq _ (by
      have hle : (i + 1) * 2 ^ sigma ≤ 2 ^ nu * 2 ^ sigma := Nat.mul_le_mul_right _ hi
      rw [Nat.succ_mul] at hle
      rw [pow_add]
      omega)]
    rfl
  rw [sum_congr rfl hentry, sum_combination fun j => i * 2 ^ sigma + j, List.zip_map_right, List.map_map]
  refine congrArg List.sum (List.map_congr_left fun x hx => ?_)
  have hmem := (List.of_mem_zip hx).2
  have hvars : x.2.numVars = x.2.numVars - sigma + sigma := (Nat.sub_add_cancel (h.le_numVars _ hmem)).symm
  rw [ArkworksPolynomial.getD_rows hvars]
  rfl

/-- The second tier of the joint polynomial's commitment. -/
theorem Combines.dot_eq (h : Combines joint polys coeffs nu sigma) (gens : List G1) (gens2 : List G2) :
    dot pair (joint.rows gens nu sigma) (gens2.take (2 ^ nu)) = ((coeffs.zip polys).map fun x =>
      x.1 • dot pair (x.2.rows gens (x.2.numVars - sigma) sigma) (gens2.take (2 ^ (x.2.numVars - sigma)))).sum := by
  rw [ArkworksPolynomial.dot_rows le_rfl]
  have hentry (i : Nat) (hi : i ∈ range (2 ^ nu)) :
      pair ((joint.rows gens nu sigma).getD i 0) ((gens2.take (2 ^ nu)).getD i 0) =
        pair.flip ((gens2.take (2 ^ nu)).getD i 0)
          (combination (coeffs.zip (polys.map fun p => p.rows gens (p.numVars - sigma) sigma)) i) := by
    rw [h.rows_eq, getD_map_range (mem_range.mp hi)]
    rfl
  rw [sum_congr rfl hentry, sum_combination fun i => i, List.zip_map_right, List.map_map]
  refine congrArg List.sum (List.map_congr_left fun x hx => ?_)
  have hmem := (List.of_mem_zip hx).2
  have hle := h.numVars_le _ hmem
  rw [ArkworksPolynomial.dot_rows (show x.2.numVars - sigma ≤ nu by omega)]
  rfl

/-- The value of the joint polynomial. -/
theorem Combines.evaluate_eq (h : Combines joint polys coeffs nu sigma) {point : List F}
    (hpoint : point.length = nu + sigma) {value : ArkworksPolynomial F → F}
    (hvalue : ∀ p ∈ polys, value p =
      ∑ i ∈ range (2 ^ point.length), p.coefficients.getD i 0 * (tensorBasis point).getD i 0) :
    joint.evaluate point = .ok ((coeffs.zip polys).map fun x => x.1 * value x.2).sum := by
  rw [ArkworksPolynomial.evaluate_basis (hpoint.trans h.numVars_eq.symm),
    msm_eq_sum (n := 2 ^ point.length) (by rw [length_tensorBasis])]
  have hentry (i : Nat) (hi : i ∈ range (2 ^ point.length)) :
      joint.coefficients.getD i 0 • (tensorBasis point).getD i 0 = (LinearMap.mul F F).flip ((tensorBasis point).getD i 0)
        (combination (coeffs.zip (polys.map (·.coefficients))) i) := by
    rw [h.getD_eq _ (by rw [← hpoint]; exact mem_range.mp hi)]
    rfl
  rw [sum_congr rfl hentry, sum_combination fun i => i, List.zip_map_right, List.map_map]
  refine congrArg Outcome.ok (congrArg List.sum (List.map_congr_left fun x hx => ?_))
  rw [hvalue _ (List.of_mem_zip hx).2]
  rfl

end Joint

/-! ## Joint openings -/

section JointOpening

variable [DecidableEq F] [DecidableEq G1] [DecidableEq G2] [DecidableEq GT] (tr : Transcript S F G1 G2 GT)
  {pair : G1 →ₗ[F] G2 →ₗ[F] GT} {setup : ProverSetup G1 G2 GT} {polys : List (ArkworksPolynomial F)}
  {coeffs point : List F} {m nu sigma : Nat} (π : BuildProfile)

/-- The commitment to a polynomial with as many columns as the setup is used for. -/
def commitShorter (pair : G1 →ₗ[F] G2 →ₗ[F] GT) (setup : ProverSetup G1 G2 GT) (sigma : Nat)
    (p : ArkworksPolynomial F) : Outcome (GT × List G1 × F) :=
  p.commit .transparent 0 pair (p.numVars - sigma) sigma setup

/-- The value of a polynomial at the first coordinates, times the Lagrange factor of those it does not have. -/
def claimShorter (point : List F) (p : ArkworksPolynomial F) : Outcome F := do
  let y ← p.evaluate (point.take p.numVars)
  return y * ((point.drop p.numVars).map (1 - ·)).prod

/-- **Polynomials are opened together.** The combined commitment and the combined hints are those of
the linear combination of the polynomials, so that its evaluation proof is accepted for the
combination of the claims, unless a challenge that the run draws is zero. -/
theorem joint_opening_accepted {intoBigint : F → Nat} (hcast : ∀ a, ((intoBigint a : Nat) : F) = a)
    (hlt : ∀ a, intoBigint a < 2 ^ 256) (hv : setup.Valid pair m) (hle : nu ≤ sigma) (hsigma : sigma ≤ m)
    (hpoint : point.length = nu + sigma) (hpolys : ∀ p ∈ polys, sigma ≤ p.numVars ∧ p.numVars ≤ nu + sigma)
    (hmax : ∃ p ∈ polys, p.numVars = nu + sigma) (hlen : polys.length = coeffs.length)
    {commitments : List (GT × List G1 × F)} (hcommit : polys.mapM (commitShorter pair setup sigma) = .ok commitments)
    {claims : List F} (hclaims : polys.mapM (claimShorter point) = .ok claims) {vs : VerifierSetup G1 G2 GT}
    (hvs : setup.toVerifierSetup pair = .ok vs) (mode : Mode) (random : ProverRandomness F) (t : S) :
    ∃ joint commitment hint, linearCombination (polys.map (·.coefficients)) coeffs = .ok joint.coefficients ∧
      combineCommitments (commitments.map (·.1)) coeffs = .ok commitment ∧
      combineHints intoBigint (commitments.map (·.2.1)) coeffs (2 ^ nu) = .ok hint ∧
      ((createEvaluationProof tr π mode random pair joint point (.some hint) 0 nu sigma setup t = .panic ∧
          DrawsZero tr mode pair setup π random joint point (.some hint) 0 nu sigma t) ∨
        ¬ DrawsZero tr mode pair setup π random joint point (.some hint) 0 nu sigma t ∧
        ∃ proof yBlind t', createEvaluationProof tr π mode random pair joint point (.some hint) 0 nu sigma setup t =
            .ok ((proof, yBlind), tr.drawn t' "d") ∧
          verifyEvaluationProof tr π pair commitment ((coeffs.zip claims).map fun x => x.1 * x.2).sum point proof vs t =
            if tr.challenge t' "d" = 0 then .error .invalidProof else .ok (tr.drawn t' "d")) := by
  obtain ⟨g1First, g2First, h1, h2⟩ := hv.exists_first
  obtain rfl : setup.derived pair m g1First g2First = vs := by
    simpa [hv.toVerifierSetup_eq h1 h2] using hvs
  have hcommitted := Outcome.mapM_ok fun p (hp : p ∈ polys) => ArkworksPolynomial.commit_eq hv
    (Nat.sub_add_cancel (hpolys p hp).1).symm (show p.numVars - sigma ≤ m by have := (hpolys p hp).2; omega) hsigma
    .transparent (0 : F)
  obtain ⟨joint, hvars, hjoint, hcoefficients⟩ := linearCombination_eq (fun p hp => (hpolys p hp).2) hmax coeffs
  have hcombines : Combines joint polys coeffs nu sigma :=
    ⟨hvars, fun p hp => (hpolys p hp).1, fun p hp => (hpolys p hp).2, hcoefficients⟩
  have hclaim (p : ArkworksPolynomial F) (hp : p ∈ polys) : claimShorter point p =
      .ok (∑ i ∈ range (2 ^ point.length), p.coefficients.getD i 0 * (tensorBasis point).getD i 0) := by
    have hshort : p.numVars ≤ point.length := hpoint ▸ (hpolys p hp).2
    obtain ⟨y, hy, hvalue⟩ := ArkworksPolynomial.evaluate_take hshort
    rw [claimShorter, hy, Outcome.ok_bind, Outcome.pure_eq, hvalue]
  have hclaimed := Outcome.mapM_ok hclaim
  obtain rfl := Outcome.ok.inj (hcommit.symm.trans hcommitted)
  obtain rfl := Outcome.ok.inj (hclaims.symm.trans hclaimed)
  have hrows := hcombines.rows_eq setup.g1Vec
  have hdot : dot pair (joint.rows setup.g1Vec nu sigma) (setup.g2Vec.take (2 ^ nu)) = _ :=
    hcombines.dot_eq setup.g1Vec setup.g2Vec
  have hvalue := hcombines.evaluate_eq hpoint fun _ _ => rfl
  refine ⟨joint, dot pair (joint.rows setup.g1Vec nu sigma) (setup.g2Vec.take (2 ^ nu)),
    joint.rows setup.g1Vec nu sigma, hjoint, ?_, ?_, ?_⟩
  · rw [combineCommitments, Outcome.assert_true (by simp [hlen]), hdot, List.map_map, List.zip_map_right, List.map_map]
    simp only [Mode.sample, zero_smul, add_zero]
    rfl
  · rw [hrows, List.map_map]
    exact combineHints_eq hcast hlt (by simp [hlen]) _
  · rw [List.zip_map_right, List.map_map]
    have hrun := honest_run tr π hv h1 h2 hvars hpoint hle hsigma mode .transparent random (r := 0) (fun _ => rfl)
      (.inl ⟨rfl, rfl⟩) hvalue t
    simp only [Mode.sample, zero_smul, add_zero] at hrun
    exact hrun

theorem joint_opening_accepted_two :
    let π : BuildProfile := { overflowChecks := false, debugAssertions := false }
    let pair := LinearMap.mul (ZMod 3) (ZMod 3)
    let setup : ProverSetup (ZMod 3) (ZMod 3) (ZMod 3) := .new pair 1 (fun i => i + 1) (fun i => i + 1) 1 2
    let tr : Transcript Unit (ZMod 3) (ZMod 3) (ZMod 3) (ZMod 3) :=
      { appendSerde := fun s _ _ => s, challengeScalar := fun s _ => (2, s) }
    let random : ProverRandomness (ZMod 3) :=
      { commit := 1, rC := 2, rD2 := 0, rE1 := 1, rE2 := 2, rY := 0, sigma1 := (1, 2, 0), sigma2 := (1, 2)
        rounds := fun _ => ⟨(1, 2), (0, 1), (2, 0), (1, 2), (0, 1)⟩, productD := (2, 0), productP := (1, 2)
        productQ := 0, productR := 1, final := (2, 0) }
    let polys : List (ArkworksPolynomial (ZMod 3)) :=
      [{ coefficients := [1, 2, 0, 1], numVars := 2, length_eq := rfl },
        { coefficients := [2, 1], numVars := 1, length_eq := rfl }]
    ∃ vs joint commitment hint proof yBlind, setup.toVerifierSetup pair = .ok vs ∧
      linearCombination (polys.map (·.coefficients)) [2, 1] = .ok joint.coefficients ∧
      combineCommitments [0, 1] [2, (1 : ZMod 3)] = .ok commitment ∧
      combineHints ZMod.val [[2, 2], [1]] [2, (1 : ZMod 3)] 2 = .ok hint ∧
      createEvaluationProof tr π .transparent random pair joint [1, 2] (.some hint) 0 1 1 setup () =
        .ok ((proof, yBlind), ()) ∧
      verifyEvaluationProof tr π pair commitment 2 [1, 2] proof vs () = .ok () := by
  intro π pair setup tr random polys
  have hv : setup.Valid pair 1 := ProverSetup.valid_new pair (by decide) _ _ _ _
  obtain ⟨g1First, g2First, h1, h2⟩ := hv.exists_first
  have hvs := hv.toVerifierSetup_eq h1 h2
  have hcommit : polys.mapM (commitShorter pair setup 1) = .ok [(0, [2, 2], 0), (1, [1], 0)] := by decide
  have hclaims : polys.mapM (claimShorter [1, 2]) = .ok [0, 2] := by decide
  have hne (t : Unit) (label : String) : tr.challenge t label ≠ 0 := show (2 : ZMod 3) ≠ 0 by decide
  obtain ⟨joint, commitment, hint, hjoint, hcombined, hhint, hopen⟩ :=
    joint_opening_accepted tr π (fun a => ZMod.natCast_zmod_val a) (fun a => (ZMod.val_lt a).trans (by norm_num)) hv le_rfl
      le_rfl rfl (by decide) ⟨_, List.mem_cons_self .., rfl⟩ (show polys.length = [2, (1 : ZMod 3)].length from rfl)
      hcommit hclaims hvs .transparent random ()
  obtain ⟨_, label, t, _, hzero⟩ | ⟨_, proof, yBlind, t', hprove, hverify⟩ := hopen
  · exact absurd hzero (hne t label)
  · rw [if_neg (hne t' "d")] at hverify
    exact ⟨_, joint, commitment, hint, proof, yBlind, hvs, hjoint, hcombined, hhint, hprove, hverify⟩

end JointOpening

end LightningJolt.Dory
