/-
The evaluation of a slice of words inside a larger memory
(`jolt-core/src/poly/eq_poly.rs` and `zkvm/ram/mod.rs`): the slice is cut into
aligned blocks, and each block's table is that of the last coordinates times the
selector of the first.
-/
import LightningJolt.AdviceReduction
import LightningJolt.EqIndex
import LightningJolt.LayoutPartition
import LightningJolt.SplitEq

namespace LightningJolt

open Finset

/-! ## Selectors -/

section Selectors

variable {F : Type} [CommRing F]

/-- The bits of an index, the highest of `n` first. -/
def indexBits (n index : Nat) : List Bool := (List.range n).map fun i => index.testBit (n - 1 - i)

/-- The factor of a bit. -/
def bitFactor (bit : Bool) (w : F) : F := if bit then w else 1 - w

theorem indexBits_succ (n index : Nat) :
    indexBits (n + 1) index = index.testBit n :: indexBits n (index % 2 ^ n) := by
  rw [indexBits, List.range_succ_eq_map, List.map_cons, List.map_map]
  congr 1
  refine List.map_congr_left fun i hi => ?_
  have hlt := List.mem_range.mp hi
  rw [Function.comp_apply, Nat.testBit_mod_two_pow, show n + 1 - 1 - i.succ = n - 1 - i by omega]
  simp only [show n - 1 - i < n by omega, decide_true, Bool.true_and]

theorem take_indexBits {n m index : Nat} (h : m ≤ n) :
    (indexBits n index).take m = indexBits m (index >>> (n - m)) := by
  refine List.ext_getElem ?_ fun i h1 h2 => ?_
  · simp only [indexBits, List.length_take, List.length_map, List.length_range]
    omega
  · rw [indexBits, List.length_map, List.length_range] at h2
    simp only [indexBits, List.getElem_take, List.getElem_map, List.getElem_range,
      Nat.testBit_shiftRight]
    congr 1
    omega

theorem drop_indexBits {n m value : Nat} (h : m ≤ n) :
    (indexBits n value).drop (n - m) = indexBits m (value % 2 ^ m) := by
  refine List.ext_getElem ?_ fun i h1 h2 => ?_
  · simp only [indexBits, List.length_drop, List.length_map, List.length_range]
    omega
  · rw [indexBits, List.length_map, List.length_range] at h2
    simp only [indexBits, List.getElem_drop, List.getElem_map, List.getElem_range, Nat.testBit_mod_two_pow]
    rw [show n - 1 - (n - m + i) = m - 1 - i by omega, decide_eq_true (show m - 1 - i < m by omega), Bool.true_and]

/-- The product of the factors of the bits is the entry of the table. -/
theorem prod_bitFactor (w : List F) {index : Nat} (h : index < 2 ^ w.length) :
    (List.zipWith bitFactor (indexBits w.length index) w).prod = eqAt w index := by
  induction w generalizing index with
  | nil =>
    rw [List.length_nil, Nat.pow_zero] at h
    have hzero : index = 0 := by omega
    rw [hzero]
    rfl
  | cons a w ih =>
    have hpos : 0 < 2 ^ w.length := Nat.two_pow_pos _
    have hmod : index % 2 ^ w.length < 2 ^ w.length := Nat.mod_lt _ hpos
    have hsplit := eqAt_append [a] w (index / 2 ^ w.length) hmod
    rw [Nat.mul_comm, Nat.div_add_mod, List.singleton_append] at hsplit
    have hdiv : index / 2 ^ w.length < 2 := by
      rw [List.length_cons, Nat.pow_succ, Nat.mul_comm] at h
      exact Nat.div_lt_of_lt_mul (by rwa [Nat.mul_comm] at h)
    have hbit : eqAt [a] (index / 2 ^ w.length) = bitFactor (index.testBit w.length) a := by
      rw [Nat.testBit_eq_decide_div_mod_eq, Nat.mod_eq_of_lt hdiv, eqAt, eqTable_singleton]
      rcases Nat.le_one_iff_eq_zero_or_eq_one.mp (Nat.lt_succ_iff.mp hdiv) with h0 | h1
      · rw [h0]
        rfl
      · rw [h1]
        rfl
    rw [List.length_cons, indexBits_succ, List.zipWith_cons_cons, List.prod_cons, ih hmod, hsplit,
      hbit]

end Selectors

/-! ## Aligned blocks -/

variable {F C : Type} [JoltField F] [Challenge C F]

/-- The product over the bits, in the loop of either function that scales by a selector. -/
def scaleByBits (bits : List Bool) (r : List C) : F :=
  (List.zipWith (fun bit r_i => bitFactor bit (Challenge.into r_i)) bits r).foldl (· * ·) 1

theorem scaleByBits_eq {n : Nat} (r : List C) {index : Nat} (hn : n ≤ r.length) (h : index < 2 ^ n) :
    scaleByBits (indexBits n index) r = eqAt ((r.take n).map (Challenge.into : C → F)) index := by
  have hlength : ((r.take n).map (Challenge.into : C → F)).length = n := by
    rw [List.length_map, List.length_take, Nat.min_eq_left hn]
  have hbits : (indexBits n index).length = n := by rw [indexBits, List.length_map, List.length_range]
  have hprod := prod_bitFactor ((r.take n).map (Challenge.into : C → F)) (by rwa [hlength])
  rw [hlength] at hprod
  rw [← hprod, scaleByBits, ← List.prod_eq_foldl, List.zipWith_map_right]
  congr 1
  refine List.ext_getElem (by simp [hbits]) fun i h1 h2 => ?_
  simp only [List.getElem_zipWith, List.getElem_take]

namespace EqPolynomial

/-- `evals_with_scaling`, parallel above `PARALLEL_THRESHOLD`. -/
def evalsWithScaling (r : List C) (scalingFactor : Option F) : List F :=
  if r.length ≤ 16 then evalsSerial r scalingFactor else evalsParallel r scalingFactor

theorem evalsWithScaling_eq (r : List C) (k : F) :
    evalsWithScaling r (.some k) = (eqTable (r.map Challenge.into)).map (k * ·) := by
  unfold evalsWithScaling
  split_ifs
  · rw [evalsSerial, foldl_expandLow, Option.getD_some]
    simp
  · rw [evalsParallel_eq, Option.getD_some]

/-- `evals_for_aligned_block`. -/
def evalsForAlignedBlock (r : List C) (startIndex blockSize : Nat) : Option (List F) := do
  guard (isPowerOfTwo blockSize)
  guard (startIndex % blockSize = 0)
  let b ← log2 blockSize
  guard (b ≤ r.length)
  let prefixLen := r.length - b
  let prefixVal := startIndex >>> b
  let prefixScale := scaleByBits (indexBits prefixLen prefixVal) r
  .some (evalsWithScaling (r.drop prefixLen) (.some prefixScale))

/-- `trailing_zeros`, of so many bits. -/
def trailingZeros : Nat → Nat → Nat
  | 0, _ => 0
  | bits + 1, n => if n % 2 = 1 then 0 else trailingZeros bits (n / 2) + 1

/-- `evals_for_max_aligned_block`. -/
def evalsForMaxAlignedBlock (r : List C) (startIndex remainingLen : Nat) : Option (Nat × List F) := do
  guard (0 < remainingLen)
  let maxLenPow := if isPowerOfTwo remainingLen then remainingLen else nextPowerOfTwo remainingLen / 2
  let alignPow := if startIndex = 0 then 2 ^ r.length else 2 ^ trailingZeros 64 startIndex
  let blockSize := min maxLenPow alignPow
  let evals ← evalsForAlignedBlock r startIndex blockSize
  .some (blockSize, evals)

theorem isPowerOfTwo_pow (k : Nat) : isPowerOfTwo (2 ^ k) = true := by
  simp only [isPowerOfTwo, Bool.and_eq_true, bne_iff_ne, beq_iff_eq]
  exact Nat.ne_zero_and_sub_one_eq_zero_iff_isPowerOfTwo.mpr ⟨k, rfl⟩

theorem log2_pow (k : Nat) : log2 (2 ^ k) = .some k := by
  rw [log2, if_neg (Nat.two_pow_pos k).ne', if_pos (isPowerOfTwo_pow k), Nat.log2_two_pow]

/-- The table of a block: the entries at its indices. -/
theorem evalsForAlignedBlock_eq {r : List C} {q k : Nat} (hk : k ≤ r.length)
    (hq : q < 2 ^ (r.length - k)) :
    evalsForAlignedBlock r (q * 2 ^ k) (2 ^ k) = .some ((List.range (2 ^ k)).map fun j =>
      eqAt (r.map (Challenge.into : C → F)) (q * 2 ^ k + j)) := by
  have hpos : 0 < 2 ^ k := Nat.two_pow_pos k
  have hshift : (q * 2 ^ k) >>> k = q := by
    rw [Nat.shiftRight_eq_div_pow, Nat.mul_div_cancel _ hpos]
  have htrue {p : Prop} [Decidable p] : p → (guard p : Option Unit) = .some () :=
    (Option.guard_eq_some' ()).mpr
  simp only [evalsForAlignedBlock, log2_pow, htrue (isPowerOfTwo_pow k),
    htrue (Nat.mul_mod_left q (2 ^ k)), htrue hk, Option.bind_eq_bind, Option.bind_some, hshift]
  rw [evalsWithScaling_eq, scaleByBits_eq r (Nat.sub_le _ _) hq]
  have hsplit : r.map (Challenge.into : C → F) = (r.take (r.length - k)).map Challenge.into ++
      (r.drop (r.length - k)).map Challenge.into := by
    rw [← List.map_append, List.take_append_drop]
  have hlength : ((r.drop (r.length - k)).map (Challenge.into : C → F)).length = k := by
    rw [List.length_map, List.length_drop]
    omega
  refine congrArg _ (List.ext_getElem ?_ fun j h1 h2 => ?_)
  · rw [List.length_map, length_eqTable, hlength, List.length_map, List.length_range]
  · rw [List.length_map, List.length_range] at h2
    rw [List.getElem_map, List.getElem_map, List.getElem_range, hsplit]
    have happend := eqAt_append ((r.take (r.length - k)).map (Challenge.into : C → F))
      ((r.drop (r.length - k)).map (Challenge.into : C → F)) q (j := j) (by rwa [hlength])
    rw [hlength] at happend
    rw [happend]
    congr 1
    exact (List.getD_eq_getElem _ _ _).symm

theorem pow_trailingZeros_dvd (bits n : Nat) : 2 ^ trailingZeros bits n ∣ n := by
  induction bits generalizing n with
  | zero => exact one_dvd n
  | succ bits ih =>
    rw [trailingZeros]
    split_ifs with hodd
    · exact one_dvd n
    · have hhalf : n = n / 2 * 2 := by omega
      rw [Nat.pow_succ]
      calc 2 ^ trailingZeros bits (n / 2) * 2 ∣ n / 2 * 2 := Nat.mul_dvd_mul_right (ih (n / 2)) 2
        _ = n := hhalf.symm

/-- The largest power of two up to a length. -/
theorem exists_maxLenPow {n : Nat} (h : 0 < n) :
    ∃ m, (if isPowerOfTwo n then n else nextPowerOfTwo n / 2) = 2 ^ m ∧ 2 ^ m ≤ n := by
  split_ifs with hpow
  · obtain ⟨m, hm⟩ := eq_pow_of_isPowerOfTwo hpow
    exact ⟨m, hm, hm.ge⟩
  · have hone : ¬ n ≤ 1 := by
      intro hle
      have heq : n = 2 ^ 0 := by omega
      exact hpow (heq ▸ isPowerOfTwo_pow 0)
    refine ⟨(n - 1).log2, ?_, ?_⟩
    · rw [nextPowerOfTwo, if_neg hone, Nat.pow_succ, Nat.mul_div_cancel _ (by decide)]
    · exact (Nat.log2_self_le (by omega)).trans (Nat.sub_le _ _)

/-- A block that starts where asked, is no longer than asked, and is not empty. -/
theorem evalsForMaxAlignedBlock_eq {r : List C} {start remaining : Nat} (hpos : 0 < remaining)
    (hend : start + remaining ≤ 2 ^ r.length) :
    ∃ b, 0 < b ∧ b ≤ remaining ∧ evalsForMaxAlignedBlock r start remaining =
      .some (b, (List.range b).map fun j => eqAt (r.map (Challenge.into : C → F)) (start + j)) := by
  obtain ⟨m, hmax, hle⟩ := exists_maxLenPow hpos
  have halign : ∃ t, (if start = 0 then 2 ^ r.length else 2 ^ trailingZeros 64 start) = 2 ^ t ∧
      2 ^ t ∣ start := by
    split_ifs with hzero
    · exact ⟨r.length, rfl, hzero ▸ Nat.dvd_zero _⟩
    · exact ⟨_, rfl, pow_trailingZeros_dvd 64 start⟩
  obtain ⟨t, halign, hdvd⟩ := halign
  obtain ⟨k, hmin, hblock, q, hstart⟩ : ∃ k, min (2 ^ m) (2 ^ t) = 2 ^ k ∧ 2 ^ k ≤ remaining ∧
      2 ^ k ∣ start := by
    rcases Nat.le_total m t with hmt | htm
    · have hpow := Nat.pow_le_pow_right (n := 2) (by decide) hmt
      exact ⟨m, Nat.min_eq_left hpow, hle, (Nat.pow_dvd_pow 2 hmt).trans hdvd⟩
    · have hpow := Nat.pow_le_pow_right (n := 2) (by decide) htm
      exact ⟨t, Nat.min_eq_right hpow, hpow.trans hle, hdvd⟩
  rw [Nat.mul_comm] at hstart
  subst hstart
  have hk : k ≤ r.length := by
    refine (Nat.pow_le_pow_iff_right (by decide : 1 < 2)).mp (hblock.trans ?_)
    exact (Nat.le_add_left _ _).trans hend
  have hq : q < 2 ^ (r.length - k) := by
    have hsplit : 2 ^ r.length = 2 ^ (r.length - k) * 2 ^ k := by
      rw [← Nat.pow_add, Nat.sub_add_cancel hk]
    have hlast : q * 2 ^ k + 2 ^ k ≤ 2 ^ (r.length - k) * 2 ^ k := by
      rw [← hsplit]
      omega
    rw [← Nat.succ_mul] at hlast
    exact Nat.le_of_mul_le_mul_right hlast (Nat.two_pow_pos k)
  refine ⟨2 ^ k, Nat.two_pow_pos k, hblock, ?_⟩
  have htrue : (guard (0 < remaining) : Option Unit) = .some () :=
    (Option.guard_eq_some' ()).mpr hpos
  simp only [evalsForMaxAlignedBlock, htrue, hmax, halign, hmin, Option.bind_eq_bind,
    Option.bind_some, evalsForAlignedBlock_eq hk hq]

end EqPolynomial

/-! ## The slice -/

/-- The loop of `sparse_eval_u64_block`, over the values left; every block has at
least one of them. -/
def sparseLoop (r : List C) : Nat → F → Nat → List U64 → Option F
  | _, acc, _, [] => .some acc
  | 0, _, _, _ :: _ => .none
  | fuel + 1, acc, idx, values => do
    let (blockSize, blockEvals) ← EqPolynomial.evalsForMaxAlignedBlock r idx values.length
    let blockAcc := (List.zipWith (fun e v => e * (v.toNat : F)) blockEvals
      (values.take blockSize)).sum
    sparseLoop r fuel (acc + blockAcc) (idx + blockSize) (values.drop blockSize)

/-- `sparse_eval_u64_block`. -/
def sparseEvalU64Block (startIndex : Nat) (values : List U64) (r : List C) : Option F :=
  sparseLoop r values.length 0 startIndex values

/-- The words of a slice against the entries at their indices. -/
def sliceEval (w : List F) : Nat → List U64 → F
  | _, [] => 0
  | idx, v :: values => eqAt w idx * (v.toNat : F) + sliceEval w (idx + 1) values

theorem sliceEval_append (w : List F) (idx : Nat) (xs ys : List U64) :
    sliceEval w idx (xs ++ ys) = sliceEval w idx xs + sliceEval w (idx + xs.length) ys := by
  induction xs generalizing idx with
  | nil => simp [sliceEval]
  | cons x xs ih =>
    rw [List.cons_append, sliceEval, ih, sliceEval, List.length_cons,
      show idx + 1 + xs.length = idx + (xs.length + 1) by omega]
    ring

theorem zipWith_range_eq (w : List F) (idx : Nat) (values : List U64) :
    (List.zipWith (fun e v => e * (v.toNat : F))
      ((List.range values.length).map fun j => eqAt w (idx + j)) values).sum =
      sliceEval w idx values := by
  induction values generalizing idx with
  | nil => rfl
  | cons v values ih =>
    rw [List.length_cons, List.range_succ_eq_map, List.map_cons, List.zipWith_cons_cons,
      List.sum_cons, List.map_map, sliceEval, ← ih (idx + 1), Nat.add_zero]
    congr 4
    funext j
    rw [Function.comp_apply, show idx + j.succ = idx + 1 + j by omega]

theorem sparseLoop_eq {r : List C} {fuel : Nat} {acc : F} {idx : Nat} {values : List U64}
    (hfuel : values.length ≤ fuel) (hend : idx + values.length ≤ 2 ^ r.length) :
    sparseLoop r fuel acc idx values = .some (acc + sliceEval (r.map Challenge.into) idx values) := by
  induction fuel generalizing acc idx values with
  | zero =>
    have hnil := List.eq_nil_of_length_eq_zero (Nat.le_zero.mp hfuel)
    rw [hnil, sparseLoop, sliceEval, add_zero]
  | succ fuel ih =>
    rcases values with _ | ⟨v, values⟩
    · rw [sparseLoop, sliceEval, add_zero]
    obtain ⟨b, hpos, hle, heval⟩ := EqPolynomial.evalsForMaxAlignedBlock_eq (F := F)
      (List.length_pos_iff.mpr (List.cons_ne_nil v values)) hend
    have htake : ((v :: values).take b).length = b := by
      rw [List.length_take, Nat.min_eq_left hle]
    have hsplit := sliceEval_append (r.map (Challenge.into : C → F)) idx
      ((v :: values).take b) ((v :: values).drop b)
    rw [List.take_append_drop, htake] at hsplit
    have hdrop : ((v :: values).drop b).length = (v :: values).length - b := List.length_drop
    have hblock := zipWith_range_eq (r.map (Challenge.into : C → F)) idx ((v :: values).take b)
    rw [htake] at hblock
    simp only [sparseLoop, heval, Option.bind_eq_bind, Option.bind_some]
    rw [hblock, ih (by omega) (by omega), hsplit, add_assoc]

/-- Inside the memory the loop returns the evaluation of the slice. -/
theorem sparseEvalU64Block_eq (r : List C) (start : Nat) (values : List U64)
    (hend : start + values.length ≤ 2 ^ r.length) :
    sparseEvalU64Block start values r =
      .some (sliceEval (r.map (Challenge.into : C → F)) start values) := by
  rw [sparseEvalU64Block, sparseLoop_eq (Nat.le_refl _) hend, zero_add]

end LightningJolt
