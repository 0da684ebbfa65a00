/-
The joint claim of the verifier against the evaluation of the matrix: the
trace polynomials agree always, an advice polynomial where the factor that is
found by values is the selector of its block.
-/
import LightningJolt.RlcMatrix

namespace LightningJolt

open Finset

/-! ## Linear combinations -/

theorem sum_zipIdx_pow {F α : Type} [CommRing F] [DecidableEq α] (gamma : F) {l : List α} (h : l.Nodup)
    (f : α → F) :
    (l.zipIdx.map fun q => gamma ^ q.2 * f q.1).sum = (l.map fun x => gamma ^ l.idxOf x * f x).sum := by
  congr 1
  refine List.ext_getElem (by simp) fun i hi hi' => ?_
  rw [List.length_map] at hi'
  simp only [List.getElem_map, List.getElem_zipIdx, Nat.zero_add, h.idxOf_getElem i hi']

/-- A sum over the matrix commutes with a linear combination. -/
theorem sum_sum_list {F α : Type} [CommRing F] (s t : Finset Nat) (l : List α) (weight : Nat → Nat → F)
    (f : α → Nat → Nat → F) :
    ∑ i ∈ s, ∑ j ∈ t, weight i j * (l.map fun x => f x i j).sum =
      (l.map fun x => ∑ i ∈ s, ∑ j ∈ t, weight i j * f x i j).sum := by
  induction l with
  | nil => simp
  | cons x l ih =>
    simp only [List.map_cons, List.sum_cons, mul_add, sum_add_distrib]
    rw [ih]

theorem OneHotParams.nodup_polynomialTypes (p : OneHotParams) : p.polynomialTypes.Nodup := by
  have hmap (n : Nat) (f : Nat → CommittedPolynomial) (hf : Function.Injective f) :
      ((List.range n).map f).Nodup := List.nodup_range.map hf
  rw [OneHotParams.polynomialTypes]
  refine List.Nodup.append (List.Nodup.append ?_ ?_ ?_) ?_ ?_
  · exact hmap _ _ fun i j h => CommittedPolynomial.InstructionRa.inj h
  · exact hmap _ _ fun i j h => CommittedPolynomial.BytecodeRa.inj h
  · intro poly hleft hright
    obtain ⟨i, -, rfl⟩ := List.mem_map.mp hleft
    obtain ⟨j, -, hj⟩ := List.mem_map.mp hright
    cases hj
  · exact hmap _ _ fun i j h => CommittedPolynomial.RamRa.inj h
  · intro poly hleft hright
    obtain ⟨i, -, rfl⟩ := List.mem_map.mp hright
    rcases List.mem_append.mp hleft with hleft | hleft
    · obtain ⟨j, -, hj⟩ := List.mem_map.mp hleft
      cases hj
    · obtain ⟨j, -, hj⟩ := List.mem_map.mp hleft
      cases hj

section Claim

variable {F C : Type} [JoltField F] [Challenge C F] {o : JointOpening C}

theorem JointOpening.nodup_polynomials (o : JointOpening C) : o.polynomials.Nodup := by
  rw [JointOpening.polynomials]
  refine List.Nodup.append (List.Nodup.append (by decide) o.params.nodup_polynomialTypes ?_) ?_ ?_
  · intro poly hleft hright
    rcases OneHotParams.mem_polynomialTypes hright with ⟨i, rfl⟩ | ⟨i, rfl⟩ | ⟨i, rfl⟩
    all_goals simp at hleft
  · refine List.Nodup.map ?_ ((by decide : [AdviceKind.Trusted, .Untrusted].Nodup).filter _)
    intro a b h
    cases a <;> cases b <;> first | rfl | cases h
  · intro poly hleft hright
    obtain ⟨kind, -, rfl⟩ := List.mem_map.mp hright
    rcases List.mem_append.mp hleft with hleft | hleft
    · cases kind
      all_goals simp [AdviceKind.polynomial] at hleft
    · rcases OneHotParams.mem_polynomialTypes hleft with ⟨i, hi⟩ | ⟨i, hi⟩ | ⟨i, hi⟩
      all_goals cases kind <;> cases hi

/-- What the trace polynomials contribute. -/
def JointWitness.tracePart (w : JointWitness F o) (gamma : F) : F :=
  o.coeff gamma .RamInc * (w.denseClaim .RamInc * zeroSelector o.rAddress) +
      o.coeff gamma .RdInc * (w.denseClaim .RdInc * zeroSelector o.rAddress) +
    (o.params.polynomialTypes.map fun poly => o.coeff gamma poly * w.raClaim poly).sum

/-- What the advice contributes under a factor for each polynomial. -/
def JointWitness.advicePart (w : JointWitness F o) (gamma : F) (factor : AdviceKind → F) : F :=
  (o.advice.map fun kind => o.coeff gamma kind.polynomial * (w.adviceClaim kind * factor kind)).sum

theorem JointWitness.jointClaim_eq [DecidableEq C] (w : JointWitness F o) {claims : CommittedPolynomial → F}
    (gamma : F) (hclaims : ∀ poly ∈ o.polynomials, claims poly = w.claim poly) :
    o.jointClaim claims gamma = w.tracePart gamma +
      w.advicePart gamma fun kind => computeAdviceLagrangeFactor o.point (o.advicePoint kind) := by
  rw [JointOpening.jointClaim, sum_zipIdx_pow gamma o.nodup_polynomials fun poly => claims poly * o.scale poly,
    List.map_congr_left fun poly hpoly => by rw [hclaims poly hpoly]]
  have hra (poly : CommittedPolynomial) (h : poly ∈ o.params.polynomialTypes) :
      gamma ^ o.polynomials.idxOf poly * (w.claim poly * o.scale poly) =
        o.coeff gamma poly * w.raClaim poly := by
    rcases OneHotParams.mem_polynomialTypes h with ⟨i, rfl⟩ | ⟨i, rfl⟩ | ⟨i, rfl⟩
    all_goals
      simp only [claim, JointOpening.scale, mul_one]
      rfl
  have hadvice (kind : AdviceKind) :
      gamma ^ o.polynomials.idxOf kind.polynomial * (w.claim kind.polynomial * o.scale kind.polynomial) =
        o.coeff gamma kind.polynomial * (w.adviceClaim kind *
          computeAdviceLagrangeFactor o.point (o.advicePoint kind)) := by
    cases kind <;> rfl
  conv_lhs =>
    enter [1, 2]
    rw [JointOpening.polynomials]
  rw [List.map_append, List.map_append, List.sum_append, List.sum_append, List.map_map,
    List.map_congr_left hra]
  simp only [List.map_cons, List.map_nil, List.sum_cons, List.sum_nil, add_zero]
  rw [advicePart, tracePart]
  congr 2
  refine List.map_congr_left fun kind _ => hadvice kind

/-! ## The blocks -/

/-- The weights of a block are the selector of the other coordinates times those of its sub-point. -/
theorem JointWitness.sum_block (w : JointWitness F o) (kind : AdviceKind) :
    ∑ row ∈ range (2 ^ o.nu), ∑ col ∈ range (2 ^ o.sigma),
        eqAt (intoPoint o.rowPoint) row * eqAt (intoPoint o.colPoint) col *
          (if row < 2 ^ o.adviceRows kind ∧ col < 2 ^ o.adviceCols kind then
            w.advicePoly kind (row * 2 ^ o.adviceCols kind + col) else 0) =
      w.adviceClaim kind * zeroSelector (o.outside kind) := by
  let rows := ((o.coordinates.drop o.sigma).take (o.adviceRows kind)).reverse
  let outRows := ((o.coordinates.drop o.sigma).drop (o.adviceRows kind)).reverse
  let cols := (o.coordinates.take (o.adviceCols kind)).reverse
  let outCols := ((o.coordinates.take o.sigma).drop (o.adviceCols kind)).reverse
  have hlen := o.length_coordinates
  have hrows : rows.length = o.adviceRows kind := by
    have hle := o.adviceRows_le kind
    simp only [rows, List.length_reverse, List.length_take, List.length_drop, hlen]
    omega
  have hcols : cols.length = o.adviceCols kind := by
    have hle := o.adviceCols_le kind
    simp only [cols, List.length_reverse, List.length_take, hlen]
    omega
  have hrowPoint : o.rowPoint = outRows ++ rows := by
    rw [JointOpening.rowPoint, ← List.reverse_append, List.take_append_drop]
  have hcolPoint : o.colPoint = outCols ++ cols := by
    have htake : o.coordinates.take (o.adviceCols kind) =
        (o.coordinates.take o.sigma).take (o.adviceCols kind) := by
      rw [List.take_take, Nat.min_eq_left (o.adviceCols_le kind)]
    simp only [outCols, cols]
    rw [JointOpening.colPoint, htake, ← List.reverse_append, List.take_append_drop]
  have hpoint : o.advicePoint kind = rows ++ cols := by
    rw [JointOpening.advicePoint, topLeftPoint, List.reverse_append]
  have houtside : (zeroSelector (o.outside kind) : F) = zeroSelector outRows * zeroSelector outCols := by
    rw [JointOpening.outside, zeroSelector_append, mul_comm]
    congr 1
    · exact zeroSelector_perm (List.reverse_perm _).symm
    · exact zeroSelector_perm (List.reverse_perm _).symm
  -- the rows and the columns outside the block contribute nothing
  have hinner (row : Nat) :
      ∑ col ∈ range (2 ^ o.sigma), eqAt (intoPoint o.rowPoint) row * eqAt (intoPoint o.colPoint) col *
          (if row < 2 ^ o.adviceRows kind ∧ col < 2 ^ o.adviceCols kind then
            w.advicePoly kind (row * 2 ^ o.adviceCols kind + col) else 0) =
        if row < 2 ^ o.adviceRows kind then
          ∑ col ∈ range (2 ^ o.adviceCols kind), eqAt (intoPoint o.rowPoint) row *
            eqAt (intoPoint o.colPoint) col * w.advicePoly kind (row * 2 ^ o.adviceCols kind + col)
        else 0 := by
    by_cases hrow : row < 2 ^ o.adviceRows kind
    · rw [if_pos hrow, ← sum_range_block (Nat.pow_le_pow_right (by omega) (o.adviceCols_le kind))]
      refine sum_congr rfl fun col _ => ?_
      by_cases hcol : col < 2 ^ o.adviceCols kind
      · rw [if_pos ⟨hrow, hcol⟩, if_pos hcol]
      · rw [if_neg fun h => hcol h.2, if_neg hcol, mul_zero]
    · rw [if_neg hrow]
      exact sum_eq_zero fun col _ => by rw [if_neg fun h => hrow h.1, mul_zero]
  rw [sum_congr rfl fun row _ => hinner row,
    sum_range_block (Nat.pow_le_pow_right (by omega) (o.adviceRows_le kind)), adviceClaim, pow_add,
    sum_range_mul, sum_mul]
  refine sum_congr rfl fun row hrow => ?_
  rw [sum_mul]
  refine sum_congr rfl fun col hcol => ?_
  have hsplit := eqAt_split (F := F) rows cols row (j := col) (by rwa [hcols, ← mem_range])
  rw [hcols] at hsplit
  rw [hrowPoint, hcolPoint, eqAt_low outRows rows (by rwa [hrows, ← mem_range]),
    eqAt_low outCols cols (by rwa [hcols, ← mem_range]), hpoint, hsplit, houtside]
  ring

/-- The evaluation of the matrix, with the selectors of the blocks. -/
theorem JointWitness.matrixEval_eq (w : JointWitness F o) (gamma : F) :
    w.matrixEval gamma = w.tracePart gamma +
      w.advicePart gamma fun kind => zeroSelector (o.outside kind) := by
  have hsplit : w.matrixEval gamma =
      (∑ k ∈ range (2 ^ o.logK), ∑ c ∈ range (2 ^ o.logT),
        eqAt (intoPoint o.rAddress) k * eqAt (intoPoint o.rCycle) c * w.traceCell gamma k c) +
      ∑ row ∈ range (2 ^ o.nu), ∑ col ∈ range (2 ^ o.sigma),
        eqAt (intoPoint o.rowPoint) row * eqAt (intoPoint o.colPoint) col * w.adviceCell gamma row col := by
    rw [← sum_matrix o (w.traceCell gamma)]
    simp only [matrixEval, cell, mul_add, sum_add_distrib]
  have hdense (poly : CommittedPolynomial) :
      ∑ k ∈ range (2 ^ o.logK), ∑ c ∈ range (2 ^ o.logT),
          eqAt (intoPoint o.rAddress) k * eqAt (intoPoint o.rCycle) c *
            (if k = 0 then w.dense poly c else 0) =
        w.denseClaim poly * zeroSelector o.rAddress := by
    have hpos : 0 ∈ range (2 ^ o.logK) := mem_range.mpr (Nat.two_pow_pos _)
    rw [sum_eq_single_of_mem 0 hpos fun k _ hk => sum_eq_zero fun c _ => by rw [if_neg hk, mul_zero],
      denseClaim, sum_mul]
    refine sum_congr rfl fun c _ => ?_
    rw [if_pos rfl, eqAt_zero_intoPoint]
    ring
  have htrace : ∑ k ∈ range (2 ^ o.logK), ∑ c ∈ range (2 ^ o.logT),
      eqAt (intoPoint o.rAddress) k * eqAt (intoPoint o.rCycle) c * w.traceCell gamma k c =
        w.tracePart gamma := by
    simp only [traceCell, mul_add, sum_add_distrib]
    rw [tracePart, sum_sum_list, ← hdense, ← hdense]
    congr 1
    · simp only [mul_sum, ← sum_add_distrib]
      refine sum_congr rfl fun k _ => sum_congr rfl fun c _ => ?_
      split_ifs
      · ring
      · ring
    · congr 1
      refine List.map_congr_left fun poly _ => ?_
      rw [raClaim, mul_sum]
      refine sum_congr rfl fun k _ => ?_
      rw [mul_sum]
      exact sum_congr rfl fun c _ => by ring
  have hadvice : ∑ row ∈ range (2 ^ o.nu), ∑ col ∈ range (2 ^ o.sigma),
      eqAt (intoPoint o.rowPoint) row * eqAt (intoPoint o.colPoint) col * w.adviceCell gamma row col =
        w.advicePart gamma fun kind => zeroSelector (o.outside kind) := by
    simp only [adviceCell]
    rw [sum_sum_list, advicePart]
    congr 1
    refine List.map_congr_left fun kind _ => ?_
    rw [← w.sum_block kind, mul_sum]
    refine sum_congr rfl fun row _ => ?_
    rw [mul_sum]
    refine sum_congr rfl fun col _ => ?_
    split_ifs
    · ring
    · ring
  rw [hsplit, htrace, hadvice]

end Claim

end LightningJolt
