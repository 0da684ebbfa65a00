/-
The first-round polynomial of the univariate skip
(`jolt-core/src/subprotocols/univariate_skip.rs`): the values on the base
window and at the targets are put in the order of the extended window, and the
polynomial through them is multiplied by the Lagrange kernel of the base window.
-/
import LightningJolt.LagrangeConsistency
import LightningJolt.UniskipTargets

namespace LightningJolt

open Polynomial Finset LagrangePolynomial

variable {F : Type} [JoltField F]

/-! ## The values of the extended window -/

/-- The loops that store values at the places of their nodes, on the window
from `-degree` up. -/
def placeAll (degree : Nat) : List Int → List F → List F → Option (List F)
  | z :: zs, v :: vs, t1Vals => do
    guard (0 ≤ z + degree ∧ (z + degree).toNat < t1Vals.length)
    placeAll degree zs vs (t1Vals.set (z + degree).toNat v)
  | _, _, t1Vals => .some t1Vals

/-- The nodes of the base window. -/
def baseNodes (domainSize : Nat) : List Int :=
  (List.range domainSize).map fun i : Nat => baseLeft domainSize + (i : Int)

/-- `t1_vals` with the values of the base window; without them they are zero. -/
def baseValues (domainSize degree : Nat) (baseEvals : Option (List F)) : Option (List F) :=
  match baseEvals with
  | .some base => placeAll degree (baseNodes domainSize) base (List.replicate (2 * degree + 1) 0)
  | .none => .some (List.replicate (2 * degree + 1) 0)

/-- `t1_vals`, on the extended window of `2 * degree + 1` nodes. -/
def extendedValues (domainSize degree : Nat) (baseEvals : Option (List F)) (extendedEvals : List F) :
    Option (List F) := do
  let t1Vals ← baseValues domainSize degree baseEvals
  placeAll degree (uniskipTargets domainSize degree) extendedEvals t1Vals

/-! ## The product -/

/-- The inner loop of the product, from the `i`-th coefficient on. -/
def addScaledAt (a : F) (bs : List F) : Nat → List F → List F
  | 0, cs => addScaled a bs cs
  | _ + 1, [] => []
  | i + 1, c :: cs => c :: addScaledAt a bs i cs

/-- The outer loop of the product. -/
def mulLoop (bs : List F) : Nat → List F → List F → List F
  | _, [], cs => cs
  | i, a :: as, cs => mulLoop bs (i + 1) as (addScaledAt a bs i cs)

/-- `build_uniskip_first_round_poly`, of `3 * degree + 1` coefficients. -/
def buildUniskipFirstRoundPoly [DecidableEq F] (domainSize degree : Nat) (baseEvals : Option (List F))
    (extendedEvals : List F) (tauHigh : F) : Option (UniPoly F) := do
  let t1Coeffs ← interpolateCoeffs (← extendedValues domainSize degree baseEvals extendedEvals)
  let lagrangeValues ← evals domainSize tauHigh
  let lagrangeCoeffs ← interpolateCoeffs lagrangeValues
  .some ⟨mulLoop t1Coeffs 0 lagrangeCoeffs (List.replicate (3 * degree + 1) 0)⟩

theorem length_addScaledAt (a : F) (bs : List F) (i : Nat) (cs : List F) :
    (addScaledAt a bs i cs).length = cs.length := by
  fun_induction addScaledAt a bs i cs with
  | case1 cs => exact length_addScaled ..
  | case2 => rfl
  | case3 i c cs ih => rw [List.length_cons, ih, List.length_cons]

theorem ofCoeffs_addScaledAt {a : F} {bs : List F} {i : Nat} {cs : List F}
    (h : i + bs.length ≤ cs.length) :
    ofCoeffs (addScaledAt a bs i cs) = ofCoeffs cs + C a * X ^ i * ofCoeffs bs := by
  fun_induction addScaledAt a bs i cs with
  | case1 cs =>
    rw [ofCoeffs_addScaled (by omega)]
    ring
  | case2 i =>
    simp only [List.length_nil] at h
    omega
  | case3 i c cs ih =>
    rw [ofCoeffs, ih (by simp only [List.length_cons] at h; omega), ofCoeffs, Nat.succ_eq_add_one]
    ring

theorem length_mulLoop (bs : List F) (i : Nat) (as cs : List F) :
    (mulLoop bs i as cs).length = cs.length := by
  fun_induction mulLoop bs i as cs with
  | case1 => rfl
  | case2 i a as cs ih => rw [ih, length_addScaledAt]

/-- The loops add the product of the two polynomials. -/
theorem ofCoeffs_mulLoop {bs : List F} {i : Nat} {as cs : List F}
    (h : i + as.length + bs.length ≤ cs.length + 1) :
    ofCoeffs (mulLoop bs i as cs) = ofCoeffs cs + X ^ i * ofCoeffs as * ofCoeffs bs := by
  fun_induction mulLoop bs i as cs with
  | case1 i cs => simp [ofCoeffs]
  | case2 i a as cs ih =>
    rw [List.length_cons] at h
    rw [ih (by rw [length_addScaledAt]; omega), ofCoeffs_addScaledAt (by omega), ofCoeffs]
    ring

/-! ## The nodes -/

/-- The targets are the nodes of the extended window outside the base window,
each of them once. -/
structure EnumeratesOutside (domainSize degree : Nat) (targets : List Int) : Prop where
  length : targets.length = degree
  nodup : targets.Nodup
  mem_iff (z : Int) : z ∈ targets ↔ (-(degree : Int) ≤ z ∧ z ≤ degree) ∧
    ¬ (baseLeft domainSize ≤ z ∧ z < baseLeft domainSize + domainSize)

theorem uniskipTargets_enumerates {n : Nat} (hpos : 1 ≤ n) (hn : n ≤ 20) :
    EnumeratesOutside n (n - 1) (uniskipTargets n (n - 1)) := by
  have hmem : ∀ m < 20, (uniskipTargets (m + 1) m).length = m ∧ (uniskipTargets (m + 1) m).Nodup ∧
      ∀ z ∈ uniskipTargets (m + 1) m, (-(m : Int) ≤ z ∧ z ≤ m) ∧
        ¬ (baseLeft (m + 1) ≤ z ∧ z < baseLeft (m + 1) + (m + 1 : Nat)) := by
    decide
  have hall : ∀ m < 20, ∀ i ∈ List.range (2 * m + 1),
      (i : Int) - m ∈ uniskipTargets (m + 1) m ∨
        (baseLeft (m + 1) ≤ (i : Int) - m ∧ (i : Int) - m < baseLeft (m + 1) + (m + 1 : Nat)) := by
    decide
  obtain ⟨m, rfl⟩ : ∃ m, n = m + 1 := ⟨n - 1, by omega⟩
  rw [Nat.add_sub_cancel]
  obtain ⟨hlen, hnodup, hin⟩ := hmem m (by omega)
  refine ⟨hlen, hnodup, fun z => ⟨hin z, fun ⟨hrange, hout⟩ => ?_⟩⟩
  have hget := hall m (by omega) (z + m).toNat (List.mem_range.mpr (by omega))
  rw [show (((z + m).toNat : Nat) : Int) - m = z by omega] at hget
  exact hget.resolve_right hout

theorem baseLeft_eq {n : Nat} (hpos : 1 ≤ n) : baseLeft n = start n := by
  rw [baseLeft, start, Int.tdiv_eq_ediv_of_nonneg (by omega)]
  omega

theorem baseNodes_bounds {n : Nat} (hpos : 1 ≤ n) :
    -((n - 1 : Nat) : Int) ≤ baseLeft n ∧ baseLeft n + n ≤ (n - 1 : Nat) + 1 := by
  rw [baseLeft_eq hpos, start]
  omega

/-! ## Placing -/

theorem placeAll_eq {degree : Nat} {zs : List Int} {vs t1Vals : List F} (hlen : zs.length = vs.length)
    (hnodup : zs.Nodup) (hrange : ∀ z ∈ zs, 0 ≤ z + degree ∧ (z + degree).toNat < t1Vals.length) :
    ∃ out, placeAll degree zs vs t1Vals = .some out ∧ out.length = t1Vals.length ∧
      (∀ j < zs.length, out.getD (zs.getD j 0 + degree).toNat 0 = vs.getD j 0) ∧
      ∀ p, (∀ z ∈ zs, (z + degree).toNat ≠ p) → out.getD p 0 = t1Vals.getD p 0 := by
  induction zs generalizing vs t1Vals with
  | nil =>
    refine ⟨t1Vals, ?_, rfl, fun j hj => absurd hj (by simp), fun _ _ => rfl⟩
    cases vs <;> rfl
  | cons z zs ih =>
    obtain ⟨v, vs, rfl⟩ := List.exists_cons_of_length_eq_add_one hlen.symm
    obtain ⟨hz, hzs⟩ := List.forall_mem_cons.mp hrange
    obtain ⟨hnot, hnodup⟩ := List.nodup_cons.mp hnodup
    obtain ⟨out, hout, houtlen, hplaced, hother⟩ :=
      @ih vs (t1Vals.set (z + degree).toNat v) (by simpa using hlen) hnodup
        (by simpa using hzs)
    have hself : out.getD (z + degree).toNat 0 = v := by
      rw [hother _ fun w hw heq => hnot ?_, List.getD_eq_getElem _ _ (by simpa using hz.2),
        List.getElem_set_self]
      have hw' := (hzs w hw).1
      have hzw : w = z := by omega
      rwa [← hzw]
    refine ⟨out, ?_, by simpa using houtlen, fun j hj => ?_, fun p hp => ?_⟩
    · rw [placeAll, (Option.guard_eq_some' ()).mpr hz]
      exact hout
    · cases j with
      | zero => simpa using hself
      | succ j => simpa using hplaced j (by simpa using hj)
    · obtain ⟨hpz, hpzs⟩ := List.forall_mem_cons.mp hp
      rw [hother p hpzs]
      simp only [List.getD_eq_getElem?_getD]
      rw [List.getElem?_set_ne hpz]

/-- The values of the extended window are those of the base window and those
at the targets, each at its node. -/
theorem extendedValues_eq {n : Nat} (hpos : 1 ≤ n) (hn : n ≤ 20) {baseEvals : Option (List F)} {ext : List F}
    (hbase : ∀ base ∈ baseEvals, base.length = n) (hext : ext.length = n - 1) :
    ∃ t1Vals, extendedValues n (n - 1) baseEvals ext = .some t1Vals ∧ t1Vals.length = 2 * (n - 1) + 1 ∧
      (∀ i < n, t1Vals.getD (baseLeft n + (i : Int) + (n - 1 : Nat)).toNat 0 =
        (baseEvals.getD (List.replicate n 0)).getD i 0) ∧
      ∀ j < n - 1, t1Vals.getD ((uniskipTargets n (n - 1)).getD j 0 + (n - 1 : Nat)).toNat 0 = ext.getD j 0 := by
  have htargets := uniskipTargets_enumerates hpos hn
  have hbounds := baseNodes_bounds hpos
  have hnode : ∀ i < n, (baseNodes n).getD i 0 = baseLeft n + (i : Int) := by
    intro i hi
    simp [baseNodes, hi]
  have hbaseRange : ∀ z ∈ baseNodes n, baseLeft n ≤ z ∧ z < baseLeft n + n := by
    intro z hz
    obtain ⟨i, hi, rfl⟩ := List.mem_map.mp hz
    rw [List.mem_range] at hi
    omega
  have hbaseNodup : (baseNodes n).Nodup := by
    refine List.Nodup.map (fun i j hij => ?_) List.nodup_range
    have hsum : baseLeft n + (i : Int) = baseLeft n + (j : Int) := hij
    omega
  obtain ⟨t1Base, ht1Base, hlenBase, hplacedBase⟩ : ∃ t1Base : List F,
      baseValues n (n - 1) baseEvals = .some t1Base ∧
      t1Base.length = 2 * (n - 1) + 1 ∧
      ∀ i < n, t1Base.getD (baseLeft n + (i : Int) + (n - 1 : Nat)).toNat 0 =
        (baseEvals.getD (List.replicate n 0)).getD i 0 := by
    cases baseEvals with
    | none =>
      refine ⟨_, rfl, by simp, fun i hi => ?_⟩
      simp [List.getD_eq_getElem?_getD, List.getElem?_replicate]
      split_ifs <;> rfl
    | some base =>
      have hlen : base.length = n := hbase base rfl
      obtain ⟨out, hout, houtlen, hplaced, -⟩ := @placeAll_eq F _ (n - 1) (baseNodes n) base
        (List.replicate (2 * (n - 1) + 1) 0) (by simp [baseNodes, hlen]) hbaseNodup
        (fun z hz => by
          have hrange := hbaseRange z hz
          rw [List.length_replicate]
          omega)
      refine ⟨out, hout, by simpa using houtlen, fun i hi => ?_⟩
      have hget := hplaced i (by simpa [baseNodes] using hi)
      rwa [hnode i hi] at hget
  obtain ⟨out, hout, houtlen, hplaced, hother⟩ := @placeAll_eq F _ (n - 1)
    (uniskipTargets n (n - 1)) ext t1Base (by rw [htargets.length, hext])
    htargets.nodup (fun z hz => by
      have hrange := (htargets.mem_iff z).mp hz
      omega)
  refine ⟨out, ?_, by omega, fun i hi => ?_, fun j hj => hplaced j (by rwa [htargets.length])⟩
  · exact (congrArg (Option.bind · _) ht1Base).trans hout
  · rw [hother, hplacedBase i hi]
    intro z hz heq
    have hrange := (htargets.mem_iff z).mp hz
    omega

/-! ## The sum over the window -/

theorem horner_eq_sum {m : Nat} {cs : List F} (h : cs.length = m) (x : F) :
    horner x cs = ∑ k ∈ range m, cs.getD k 0 * x ^ k := by
  induction m generalizing cs with
  | zero =>
    rw [List.length_eq_zero_iff.mp h]
    rfl
  | succ m ih =>
    obtain ⟨c, cs, rfl⟩ := List.exists_cons_of_length_eq_add_one h
    have hrest := @ih cs (by simpa using h)
    rw [sum_range_succ']
    simp only [horner] at hrest
    simp only [horner, List.foldr_cons, hrest, List.getD_cons_succ, List.getD_cons_zero, pow_zero, mul_one,
      mul_sum, pow_succ]
    rw [add_comm]
    congr 1
    exact sum_congr rfl fun k _ => by ring

theorem checkSumLoop_eq {m : Nat} {cs : List F} {sums : List Int} (hcs : cs.length = m)
    (hsums : m ≤ sums.length) (acc : F) :
    checkSumLoop cs sums acc = .some (acc + ∑ k ∈ range m, cs.getD k 0 * ((sums.getD k 0 : Int) : F)) := by
  induction m generalizing cs sums acc with
  | zero =>
    rw [List.length_eq_zero_iff.mp hcs]
    simp [checkSumLoop]
  | succ m ih =>
    obtain ⟨c, cs, rfl⟩ := List.exists_cons_of_length_eq_add_one hcs
    obtain ⟨s, sums, rfl⟩ := List.exists_cons_of_length_pos (show 0 < sums.length by omega)
    rw [checkSumLoop, ih (by simpa using hcs) (by simpa using hsums), sum_range_succ']
    simp only [List.getD_cons_succ, List.getD_cons_zero]
    congr 1
    ring

/-- The loop over the power sums of the window sums the values at its nodes. -/
theorem checkSumLoop_powerSums {n len : Nat} {cs : List F} (hlen : cs.length ≤ len) :
    checkSumLoop cs ((List.range len).map fun k =>
        ((List.range n).map fun i : Nat => (start n + (i : Int)) ^ k).sum) 0 =
      .some (∑ i ∈ range n, horner (node F n i) cs) := by
  rw [checkSumLoop_eq rfl (by simpa using hlen), zero_add]
  congr 1
  simp only [horner_eq_sum (rfl : cs.length = cs.length)]
  rw [sum_comm]
  refine sum_congr rfl fun k hk => ?_
  rw [mem_range] at hk
  have hget : ((List.range len).map fun k =>
      ((List.range n).map fun i : Nat => (start n + (i : Int)) ^ k).sum).getD k 0 =
      ((List.range n).map fun i : Nat => (start n + (i : Int)) ^ k).sum := by
    rw [List.getD_eq_getElem _ _ (by rw [List.length_map, List.length_range]; omega), List.getElem_map,
      List.getElem_range]
  have hlist : ((List.range n).map fun i : Nat => (start n + (i : Int)) ^ k).sum =
      ∑ i ∈ range n, (start n + (i : Int)) ^ k := rfl
  rw [← mul_sum, hget, hlist, Int.cast_sum]
  congr 1
  refine sum_congr rfl fun i _ => ?_
  rw [Int.cast_pow, node]

theorem addI128_of_fits {π : BuildProfile} {a b : Int} (h : |a + b| < 2 ^ 127) : π.addI128 a b = .some (a + b) := by
  rw [abs_lt] at h
  rw [BuildProfile.addI128, if_pos ⟨h.1.le, h.2⟩]

/-- The powers of a node are added where they and the sums fit. -/
theorem accumulatePowers_eq {π : BuildProfile} {t : Int} {f : Nat → Int} {k len : Nat}
    (hsum : ∀ i < k + len, |f i + t ^ i| < 2 ^ 127) (hpow : ∀ i ≤ k + len, |t ^ i| < 2 ^ 127) :
    accumulatePowers π t (t ^ k) ((List.range' k len).map f) =
      .some ((List.range' k len).map fun i => f i + t ^ i) := by
  induction len generalizing k with
  | zero => rfl
  | succ len ih =>
    have hnext : checkedMulI128 (t ^ k) t = .some (t ^ (k + 1)) := by
      have hfits := abs_lt.mp (hpow (k + 1) (by omega))
      rw [checkedMulI128, ← pow_succ, if_pos ⟨hfits.1.le, hfits.2⟩]
    have hrest := ih (k := k + 1) (fun i hi => hsum i (by omega)) fun i hi => hpow i (by omega)
    simp only [List.range'_succ, List.map_cons, accumulatePowers, addI128_of_fits (hsum k (by omega)), hnext,
      Option.bind_eq_bind, Option.bind_some, hrest]

/-- With nodes of at most `b` the sums of a node's powers stay below the number of nodes times a power of `b`. -/
theorem accumulateNodes_eq {π : BuildProfile} {b : Int} (hb : 1 ≤ b) {nodes : List Int} (hnodes : ∀ t ∈ nodes, |t| ≤ b)
    {f : Nat → Int} {len c : Nat} (hf : ∀ i, |f i| ≤ c * b ^ i)
    (hfit : ((c + nodes.length : Nat) : Int) * b ^ (len + 1) < 2 ^ 127) :
    accumulateNodes π nodes ((List.range (len + 1)).map f) =
      .some ((List.range (len + 1)).map fun i => f i + (nodes.map (· ^ i)).sum) := by
  induction nodes generalizing f c with
  | nil => simp [accumulateNodes, List.range_succ_eq_map]
  | cons t nodes ih =>
    rw [List.forall_mem_cons] at hnodes
    have hpow (i : Nat) : |t ^ i| ≤ b ^ i := by
      rw [abs_pow]
      exact pow_le_pow_left₀ (abs_nonneg t) hnodes.1 i
    have hstep (i : Nat) : |f i + t ^ i| ≤ (c + 1 : Nat) * b ^ i := by
      calc |f i + t ^ i| ≤ |f i| + |t ^ i| := abs_add_le _ _
        _ ≤ c * b ^ i + b ^ i := add_le_add (hf i) (hpow i)
        _ = (c + 1 : Nat) * b ^ i := by push_cast; ring
    have hlt {i m : Nat} (hi : i ≤ len + 1) (hm : m ≤ c + (nodes.length + 1)) : (m : Int) * b ^ i < 2 ^ 127 := by
      refine lt_of_le_of_lt ?_ hfit
      exact mul_le_mul (by exact_mod_cast hm) (pow_le_pow_right₀ hb hi) (by positivity) (by positivity)
    have hsum (i : Nat) (hi : i ≤ len) : |f i + t ^ i| < 2 ^ 127 := (hstep i).trans_lt (hlt (by omega) (by omega))
    have hpowers : accumulatePowers π t (t ^ 1) ((List.range' 1 len).map f) =
        .some ((List.range' 1 len).map fun i => f i + t ^ i) :=
      accumulatePowers_eq (fun i hi => hsum i (by omega)) fun i hi =>
        (hpow i).trans_lt (by simpa using hlt (m := 1) (by omega) (by omega))
    have hrest := ih hnodes.2 (f := fun i => f i + t ^ i) (c := c + 1) hstep
      (by rwa [List.length_cons, ← Nat.add_assoc, Nat.add_right_comm] at hfit)
    have hone := addI128_of_fits (π := π) (hsum 0 (Nat.zero_le len))
    rw [pow_one] at hpowers
    rw [pow_zero] at hone
    simp only [List.range_eq_range', List.range'_succ, List.map_cons, accumulateNodes, hone, Option.bind_eq_bind,
      Option.bind_some, zero_add, hpowers]
    simpa [List.range_eq_range', List.range'_succ, add_assoc] using hrest

/-- Up to fifteen nodes the power sums fit. -/
theorem powerSums_eq {n : Nat} (hpos : 1 ≤ n) (hn : n ≤ 15) (π : BuildProfile) :
    powerSums π n (3 * (n - 1) + 1) = .some ((List.range (3 * (n - 1) + 1)).map fun k =>
      ((List.range n).map fun i : Nat => (start n + (i : Int)) ^ k).sum) := by
  -- the nodes are within seven of zero, and fifteen times the largest power is far from the end of `i128`
  have hnodes : ∀ t ∈ (List.range n).map fun i : Nat => start n + (i : Int), |t| ≤ 7 := by
    intro t ht
    obtain ⟨i, hi, rfl⟩ := List.mem_map.mp ht
    rw [List.mem_range] at hi
    rw [start, abs_le]
    omega
  have hfit : ((0 + ((List.range n).map fun i : Nat => start n + (i : Int)).length : Nat) : Int) *
      7 ^ (3 * (n - 1) + 1) < 2 ^ 127 := by
    rw [List.length_map, List.length_range, Nat.zero_add]
    calc (n : Int) * 7 ^ (3 * (n - 1) + 1) ≤ 15 * 7 ^ 43 :=
          mul_le_mul (by exact_mod_cast hn) (pow_le_pow_right₀ (by decide) (by omega)) (by positivity) (by decide)
      _ < 2 ^ 127 := by norm_num
  have h := accumulateNodes_eq (π := π) (by decide) hnodes (f := fun _ => 0) (fun i => by simp) hfit
  rw [List.map_const', List.length_range] at h
  rw [powerSums, if_neg (Nat.succ_ne_zero _), BuildProfile.subUsize, if_pos hpos, Option.bind_eq_bind, Option.bind_some]
  have hcast : (do let a ← List.range n; pure (a : Int)) = (List.range n).map fun a : Nat => (a : Int) := by
    rw [List.map_eq_flatMap]
    rfl
  rw [hcast]
  simpa [start, Function.comp_def] using h

/-- The check of a polynomial of that many coefficients is that of its sum over
the window. -/
theorem checkSumEvals_eq [DecidableEq F] {n : Nat} (hpos : 1 ≤ n) (hn : n ≤ 15) {p : UniPoly F}
    (hlen : p.coeffs.length = 3 * (n - 1) + 1) (π : BuildProfile) (claim : F) :
    p.checkSumEvals π n (3 * (n - 1) + 1) claim =
      .some (decide (∑ i ∈ range n, horner (node F n i) p.coeffs = claim)) := by
  have hdegree : p.degree π = .some (3 * (n - 1)) := by
    rw [UniPoly.degree, BuildProfile.subUsize, hlen, if_pos (by omega), Nat.add_sub_cancel]
  have hadd : π.addUsize (3 * (n - 1)) 1 = .some (3 * (n - 1) + 1) :=
    π.addUsize_of_lt (by omega)
  rw [UniPoly.checkSumEvals, powerSums_eq hpos hn π]
  simp only [Option.bind_eq_bind, Option.bind_some, hdegree, hadd,
    checkSumLoop_powerSums hlen.le]
  cases π.debugAssertions <;> simp

/-! ## The first round -/

/-- The Lagrange routines of a window of `n` nodes speak of one polynomial:
the coefficients interpolate the values, the value and the combination by the
basis are those of the coefficients at every point, and the kernel combines
the bases. -/
structure LagrangeConsistent (F : Type) [JoltField F] [DecidableEq F] (n : Nat) : Prop where
  interpolates (values : List F) (hlen : values.length = n) : ∃ cs, interpolateCoeffs values = .some cs ∧
    cs.length = n ∧ (∀ i < n, horner (node F n i) cs = values.getD i 0) ∧
    ∀ r, LagrangePolynomial.evaluate values r = .some (horner r cs) ∧
      ∃ ws, evals n r = .some ws ∧ combine values ws = horner r cs
  kernel (x y : F) : ∃ wx wy, evals n x = .some wx ∧ evals n y = .some wy ∧
    lagrangeKernel n x y = .some (combine wx wy)

/-- `s1` is the product of the kernel at `tauHigh` and of the one polynomial
through the values on the base window and at the targets. -/
structure IsFirstRound [DecidableEq F] (n : Nat) (values ext : List F) (tauHigh : F) (s1 : UniPoly F) :
    Prop where
  length : s1.coeffs.length = 3 * (n - 1) + 1
  product : ∃ l t1 : List F, s1.toPolynomial = ofCoeffs l * ofCoeffs t1 ∧
    l.length = n ∧ (∀ y, lagrangeKernel n tauHigh y = .some (horner y l)) ∧
    t1.length = 2 * (n - 1) + 1 ∧ (∀ i < n, horner (node F n i) t1 = values.getD i 0) ∧
    (∀ j < n - 1, horner (((uniskipTargets n (n - 1)).getD j 0 : Int) : F) t1 = ext.getD j 0) ∧
    ∀ p : F[X], p.degree < (2 * (n - 1) + 1 : Nat) → (∀ i < n, p.eval (node F n i) = values.getD i 0) →
      (∀ j < n - 1, p.eval (((uniskipTargets n (n - 1)).getD j 0 : Int) : F) = ext.getD j 0) →
      p = ofCoeffs t1
  sum : ∃ ws, evals n tauHigh = .some ws ∧ ∑ i ∈ range n, horner (node F n i) s1.coeffs = combine values ws
  check (hn : n ≤ 15) (π : BuildProfile) (claim : F) : ∃ ws, evals n tauHigh = .some ws ∧
    s1.checkSumEvals π n (3 * (n - 1) + 1) claim = .some (decide (combine values ws = claim))

section FirstRound

variable [DecidableEq F] {n : Nat}

theorem evals_eq_weights (hpos : 1 ≤ n) (h : SmallsInvertible F n) (r : F) : evals n r = .some (weights n r) :=
  evals_eq (denRow_ne_zero h) (sum_weights hpos h r)

theorem lagrangeConsistent (hpos : 1 ≤ n) (h : SmallsInvertible F n) : LagrangeConsistent F n where
  interpolates values hlen := by
    subst hlen
    obtain ⟨cs, hcs, hlength, hvalues⟩ := interpolateCoeffs_eq values hpos h
    refine ⟨cs, hcs, hlength, hvalues, fun r => ?_⟩
    have hcombine := combine_weights h hlength rfl hvalues r
    exact ⟨by rw [LagrangePolynomial.evaluate_eq hpos h, hcombine], _, evals_eq_weights hpos h r, hcombine⟩
  kernel x y := ⟨_, _, evals_eq_weights hpos h x, evals_eq_weights hpos h y, lagrangeKernel_eq hpos h x y⟩

/-! The nodes of the extended window, by their integers. -/

omit [DecidableEq F] in
theorem node_extended {z : Int} (hlo : -((n - 1 : Nat) : Int) ≤ z) :
    node F (2 * (n - 1) + 1) (z + (n - 1 : Nat)).toNat = (z : F) := by
  have hstart : start (2 * (n - 1) + 1) = -((n - 1 : Nat) : Int) := by
    rw [start]
    omega
  rw [node, hstart]
  congr 1
  omega

omit [DecidableEq F] in
theorem node_base (hpos : 1 ≤ n) (i : Nat) :
    node F (2 * (n - 1) + 1) (baseLeft n + (i : Int) + (n - 1 : Nat)).toNat = node F n i := by
  have hbounds := baseNodes_bounds hpos
  rw [node_extended (by omega), node, baseLeft_eq hpos]

theorem EnumeratesOutside.range {targets : List Int} {degree : Nat} (h : EnumeratesOutside n degree targets)
    {j : Nat} (hj : j < degree) : -(degree : Int) ≤ targets.getD j 0 ∧ targets.getD j 0 ≤ degree := by
  have hmem : targets.getD j 0 ∈ targets := by
    rw [List.getD_eq_getElem _ _ (by rwa [h.length])]
    exact List.getElem_mem _
  exact ((h.mem_iff _).mp hmem).1

omit [DecidableEq F] in
/-- A polynomial of the degree of the extended window is known by its values
on the base window and at the targets. -/
theorem eq_ofCoeffs_of_extended (hpos : 1 ≤ n) (hn : n ≤ 20) (h : SmallsInvertible F (2 * (n - 1) + 1))
    {t1 : List F} (hlen : t1.length = 2 * (n - 1) + 1) {p : F[X]} (hdeg : p.degree < (2 * (n - 1) + 1 : Nat))
    (hbase : ∀ i < n, p.eval (node F n i) = horner (node F n i) t1)
    (htarget : ∀ j < n - 1, p.eval (((uniskipTargets n (n - 1)).getD j 0 : Int) : F) =
      horner (((uniskipTargets n (n - 1)).getD j 0 : Int) : F) t1) : p = ofCoeffs t1 := by
  have htargets := uniskipTargets_enumerates hpos hn
  have hbounds := baseNodes_bounds hpos
  refine Polynomial.eq_of_degrees_lt_of_eval_index_eq (range (2 * (n - 1) + 1)) h.node_injOn
    (by rwa [card_range]) (by rw [card_range, ← hlen]; exact degree_ofCoeffs_lt t1) fun k hk => ?_
  rw [mem_range] at hk
  rw [eval_ofCoeffs]
  by_cases hin : baseLeft n ≤ (k : Int) - (n - 1 : Nat) ∧ (k : Int) - (n - 1 : Nat) < baseLeft n + n
  · have hi : ((k : Int) - (n - 1 : Nat) - baseLeft n).toNat < n := by omega
    have hk' : k = (baseLeft n + (((k : Int) - (n - 1 : Nat) - baseLeft n).toNat : Int) +
        (n - 1 : Nat)).toNat := by omega
    rw [hk', node_base hpos _]
    exact hbase _ hi
  · have hmem := (htargets.mem_iff ((k : Int) - (n - 1 : Nat))).mpr ⟨by omega, hin⟩
    obtain ⟨j, hj, hget⟩ := List.mem_iff_getElem.mp hmem
    have hj' : j < n - 1 := by rwa [htargets.length] at hj
    have hgetD : (uniskipTargets n (n - 1)).getD j 0 = (k : Int) - (n - 1 : Nat) := by
      rw [List.getD_eq_getElem _ _ hj, hget]
    have hk' : k = ((uniskipTargets n (n - 1)).getD j 0 + (n - 1 : Nat)).toNat := by omega
    have hlo := (htargets.range hj').1
    rw [hk', node_extended hlo]
    exact htarget j hj'

/-- The coefficients of the polynomial through the values of the extended window. -/
theorem exists_t1Coeffs (hpos : 1 ≤ n) (hn : n ≤ 20) (h : SmallsInvertible F (2 * (n - 1) + 1))
    {baseEvals : Option (List F)} {ext : List F} (hbase : ∀ base ∈ baseEvals, base.length = n)
    (hext : ext.length = n - 1) :
    ∃ t1Vals t1, extendedValues n (n - 1) baseEvals ext = .some t1Vals ∧
      interpolateCoeffs t1Vals = .some t1 ∧ t1.length = 2 * (n - 1) + 1 ∧
      (∀ i < n, horner (node F n i) t1 = (baseEvals.getD (List.replicate n 0)).getD i 0) ∧
      ∀ j < n - 1, horner (((uniskipTargets n (n - 1)).getD j 0 : Int) : F) t1 = ext.getD j 0 := by
  have htargets := uniskipTargets_enumerates hpos hn
  have hbounds := baseNodes_bounds hpos
  obtain ⟨t1Vals, ht1Vals, hlen1, hbaseVals, htargetVals⟩ := extendedValues_eq hpos hn hbase hext
  obtain ⟨t1, ht1, hlent1, hnodes⟩ := interpolateCoeffs_eq t1Vals (by omega) (by rwa [hlen1])
  rw [hlen1] at hlent1 hnodes
  refine ⟨t1Vals, t1, ht1Vals, ht1, hlent1, fun i hi => ?_, fun j hj => ?_⟩
  · rw [← node_base hpos _, hnodes _ (by omega), hbaseVals i hi]
  · obtain ⟨hlo, hhi⟩ := htargets.range hj
    rw [← node_extended hlo, hnodes _ (by omega), htargetVals j hj]

omit [DecidableEq F] in
theorem ofCoeffs_replicate_zero (m : Nat) : ofCoeffs (List.replicate m (0 : F)) = 0 := by
  induction m with
  | zero => rfl
  | succ m ih => simp [List.replicate_succ, ofCoeffs, ih]

/-- The polynomial that is built, on a window of at most twenty nodes. -/
theorem exists_firstRound (hpos : 1 ≤ n) (hn : n ≤ 20) (h : SmallsInvertible F (2 * (n - 1) + 1))
    (baseEvals : Option (List F)) (ext : List F) (tauHigh : F)
    (hbase : ∀ base ∈ baseEvals, base.length = n) (hext : ext.length = n - 1) :
    ∃ s1, buildUniskipFirstRoundPoly n (n - 1) baseEvals ext tauHigh = .some s1 ∧
      IsFirstRound n (baseEvals.getD (List.replicate n 0)) ext tauHigh s1 := by
  have hsmall : SmallsInvertible F n := fun k hk hlt => h k hk (by omega)
  have hvalues : (baseEvals.getD (List.replicate n 0)).length = n := by
    cases baseEvals with
    | none => simp
    | some base => exact hbase base rfl
  obtain ⟨t1Vals, t1, ht1Vals, ht1, hlent1, hbaseAt, htargetAt⟩ := exists_t1Coeffs hpos hn h hbase hext
  generalize baseEvals.getD (List.replicate n 0) = values at *
  have hunique : ∀ p : F[X], p.degree < (2 * (n - 1) + 1 : Nat) →
      (∀ i < n, p.eval (node F n i) = values.getD i 0) →
      (∀ j < n - 1, p.eval (((uniskipTargets n (n - 1)).getD j 0 : Int) : F) = ext.getD j 0) →
      p = ofCoeffs t1 := fun p hdeg hp hptarget =>
    eq_ofCoeffs_of_extended hpos hn h hlent1 hdeg (fun i hi => (hp i hi).trans (hbaseAt i hi).symm)
      fun j hj => (hptarget j hj).trans (htargetAt j hj).symm
  obtain ⟨l, hl, hlenl, hlnodes⟩ := interpolateCoeffs_eq (weights n tauHigh)
    (by rw [length_weights]; exact hpos) (by rwa [length_weights])
  rw [length_weights] at hlenl hlnodes
  have hs1 : (mulLoop t1 0 l (List.replicate (3 * (n - 1) + 1) 0)).length = 3 * (n - 1) + 1 := by
    rw [length_mulLoop, List.length_replicate]
  have hproduct : ofCoeffs (mulLoop t1 0 l (List.replicate (3 * (n - 1) + 1) 0)) = ofCoeffs l * ofCoeffs t1 := by
    rw [ofCoeffs_mulLoop (by rw [List.length_replicate]; omega), ofCoeffs_replicate_zero, pow_zero, one_mul,
      zero_add]
  have hsum : ∑ i ∈ range n, horner (node F n i) (mulLoop t1 0 l (List.replicate (3 * (n - 1) + 1) 0)) =
      combine values (weights n tauHigh) := by
    rw [combine_eq_sum hvalues (length_weights n tauHigh)]
    refine sum_congr rfl fun i hi => ?_
    rw [mem_range] at hi
    rw [← eval_ofCoeffs, hproduct, eval_mul, eval_ofCoeffs, eval_ofCoeffs, hlnodes i hi, hbaseAt i hi, mul_comm]
  have hevals := evals_eq_weights hpos hsmall tauHigh
  refine ⟨⟨mulLoop t1 0 l (List.replicate (3 * (n - 1) + 1) 0)⟩, ?_, hs1, ?_, ⟨_, hevals, hsum⟩,
    fun hn15 π claim => ⟨_, hevals, ?_⟩⟩
  · rw [buildUniskipFirstRoundPoly]
    simp only [ht1Vals, ht1, hevals, hl, Option.bind_eq_bind, Option.bind_some]
  · refine ⟨l, t1, hproduct, hlenl, fun y => ?_, hlent1, hbaseAt, htargetAt, hunique⟩
    rw [lagrangeKernel_eq hpos hsmall, combine_weights hsmall hlenl (length_weights n tauHigh) hlnodes]
  · rw [checkSumEvals_eq hpos hn15 hs1, hsum]

/-- **The first-round polynomial is right**, on every window of at most twenty
nodes: the targets enumerate the extended window outside it, the routines are
consistent, and the polynomial built is the product of the kernel and of the
polynomial through all the values, whose sum over the window is the one that
`check_sum_evals` accepts, where its power sums fit. -/
theorem buildUniskipFirstRoundPoly_eq (hpos : 1 ≤ n) (hn : n ≤ 20) (h : SmallsInvertible F (2 * (n - 1) + 1))
    (baseEvals : Option (List F)) (ext : List F) (tauHigh : F)
    (hbase : ∀ base ∈ baseEvals, base.length = n) (hext : ext.length = n - 1) :
    EnumeratesOutside n (n - 1) (uniskipTargets n (n - 1)) ∧ LagrangeConsistent F n ∧
      ∃ s1, buildUniskipFirstRoundPoly n (n - 1) baseEvals ext tauHigh = .some s1 ∧
        IsFirstRound n (baseEvals.getD (List.replicate n 0)) ext tauHigh s1 :=
  ⟨uniskipTargets_enumerates hpos hn, lagrangeConsistent hpos fun k hk hlt => h k hk (by omega),
    exists_firstRound hpos hn h baseEvals ext tauHigh hbase hext⟩

end FirstRound

/-- The small integers of the largest window are units of the scalar field. -/
theorem smallsInvertible_fr {n : Nat} (hn : n ≤ 39) : SmallsInvertible Fr n := by
  have h : ∀ k ∈ List.range 39, 0 < k → ((k : Nat) : Fr) ≠ 0 := by decide
  exact fun k hk hlt => h k (List.mem_range.mpr (by omega)) hk

theorem buildUniskipFirstRoundPoly_eq_four : (4 : Nat) ≤ 20 ∧ SmallsInvertible Fr 7 ∧
    EnumeratesOutside 4 3 (uniskipTargets 4 3) ∧ LagrangeConsistent Fr 4 ∧
      ∃ s1, buildUniskipFirstRoundPoly 4 3 (.some [1, 2, 3, 5]) [7, 11, 13] (17 : Fr) = .some s1 ∧
        IsFirstRound 4 [1, 2, 3, 5] [7, 11, 13] 17 s1 :=
  ⟨by decide, smallsInvertible_fr (by decide),
    buildUniskipFirstRoundPoly_eq (n := 4) (by decide) (by decide) (smallsInvertible_fr (by decide))
      (.some [1, 2, 3, 5]) [7, 11, 13] 17 (by simp) rfl⟩

/-- On sixteen nodes the check of the polynomial of zeros overflows. -/
theorem checkSumEvals_overflow : ∃ s1,
    buildUniskipFirstRoundPoly 16 15 .none (List.replicate 15 0) (0 : Fr) = .some s1 ∧
      s1.checkSumEvals ⟨false, false⟩ 16 46 0 = .none := by
  obtain ⟨s1, hs1, -⟩ := exists_firstRound (n := 16) (by decide) (by decide)
    (smallsInvertible_fr (by decide)) .none (List.replicate 15 (0 : Fr)) 0 nofun rfl
  have hsums : powerSums ⟨false, false⟩ 16 46 = .none := by decide
  exact ⟨s1, hs1, by simp [UniPoly.checkSumEvals, hsums]⟩

end LightningJolt
