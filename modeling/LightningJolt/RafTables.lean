/-
The operand and identity decompositions (`jolt-core/src/poly/prefix_suffix.rs`,
`jolt-core/src/poly/identity_poly.rs`): the tables of the suffixes, those of all three made in one
scan, the weights condensed between phases, and the direct sum that they stand for.
-/
import LightningJolt.AffineTables
import LightningJolt.PrefixSharing
import LightningJolt.EqBuilders
import LightningJolt.LookupEntry

namespace LightningJolt

open Finset

variable {F : Type} [JoltField F]

/-! ## The polynomials -/

namespace Prefix

/-- The place of the coordinate of a digit of the value. -/
def place (kind : Prefix) (i : Nat) : Nat :=
  match kind with
  | .identity => i
  | .leftOperand => 2 * i
  | .rightOperand => 2 * i + 1

/-- `evaluate`, of the identity and of the operand polynomials. -/
def evaluate (kind : Prefix) (r : List F) : F :=
  ∑ i ∈ range (kind.width r.length), r.getD (kind.place i) 0 * 2 ^ (kind.width r.length - 1 - i)

end Prefix

/-! ## The tables of all three -/

/-- A table of `init_Q_raf`: the weights of the cycles of one kind by the index of their prefix,
each with the number that its suffix gives. -/
def rafRow (chunkLen suffixLen : Nat) (cycles : List (LookupBits × F × Bool)) (interleaved : Bool)
    (number : LookupBits → Nat) : List F :=
  tableOf (2 ^ chunkLen) fun rIndex => (cycles.map fun (k, u, isInterleaved) =>
    let (prefixBits, suffixBits) := k.split suffixLen
    if isInterleaved = interleaved ∧ (prefixBits.bits &&& (2 ^ chunkLen - 1)) = rIndex then
      u * (number suffixBits : F)
    else 0).sum

/-- `init_Q_raf`: the tables of the three in one scan, by the sizes of the first. The shift is the
same for all suffixes, so that it multiplies the sums. -/
def initQRaf (left right identity : Decomposition F) (uEvals : List F) (lookupBits : List LookupBits)
    (isInterleaved : List Bool) : Decomposition F × Decomposition F × Decomposition F :=
  let suffixLen := left.suffixLen
  let row := rafRow left.chunkLen suffixLen (lookupBits.zip (uEvals.zip isInterleaved))
  let shiftHalf := 2 ^ (suffixLen / 2)
  let shiftFull := 2 ^ suffixLen
  let qShiftHalf := (row true fun _ => 1).map fun v => if shiftHalf = 1 then v else v * ((shiftHalf : Nat) : F)
  let qShiftFull := (row false fun _ => 1).map fun v => if shiftFull = 1 then v else v * ((shiftFull : Nat) : F)
  let qLeft := row true fun suffix => suffix.uninterleave.1.bits
  let qRight := row true fun suffix => suffix.uninterleave.2.bits
  let qIdentity := row false fun suffix => suffix.bits
  ({ left with q := (qShiftHalf, qLeft) }, { right with q := (qShiftHalf, qRight) },
    { identity with q := (qShiftFull, qIdentity) })

/-- The cycles of a decomposition: those with interleaved operands, or the others. -/
def cyclesOf (kind : Prefix) (isInterleaved : List Bool) (n : Nat) : List Nat :=
  (List.range n).filter fun j => isInterleaved.getD j false = decide (kind ≠ .identity)

/-! ## Between phases -/

/-- The table of a phase: reset to one, and updated with its challenges. -/
def phaseTable (chunkLen : Nat) (rs : List F) : Option (List F) := do
  let table ← rs.foldlM ExpandingTable.update
    (← ExpandingTable.reset (ExpandingTable.new (2 ^ chunkLen) .highToLow) 1)
  .some table.cloneValues

/-- The condensation of `init_phase`: each weight with the entry for the chunk that was bound. -/
def condense (v : List F) (chunkLen suffixLen : Nat) (lookupBits : List LookupBits) (uEvals : List F) :
    Option (List F) :=
  (List.zip lookupBits uEvals).mapM fun (k, u) => do
    .some (u * (← v[(k.split suffixLen).1.bits &&& (2 ^ chunkLen - 1)]?))

/-! ## The direct sumcheck -/

/-- The multilinear extension of the weights by lookup index. -/
def weightAt (lookupBits : List LookupBits) (indices : List Nat) (uEvals x : List F) : F :=
  (indices.map fun j => uEvals.getD j 0 * eqMle x (bitsPoint x.length (lookupBits.getD j ⟨0, 0⟩).bits)).sum

/-- The sum of the weights times the polynomial over the last coordinates. -/
def directSum (kind : Prefix) (lookupBits : List LookupBits) (indices : List Nat) (uEvals x : List F)
    (suffixLen : Nat) : F :=
  ∑ y ∈ range (2 ^ suffixLen), weightAt lookupBits indices uEvals (x ++ bitsPoint suffixLen y) *
    kind.evaluate (x ++ bitsPoint suffixLen y)

/-! ## The polynomials over a split -/

namespace Prefix

variable (kind : Prefix)

theorem affine_evaluate : Affine (F := F) kind.evaluate := by
  intro a r z
  have hlen (s : F) : (a ++ s :: z).length = a.length + (z.length + 1) := by simp
  rw [evaluate, evaluate, evaluate, hlen, hlen, hlen]
  generalize kind.width (a.length + (z.length + 1)) = w
  rw [line, ← sum_sub_distrib, mul_sum, ← sum_add_distrib]
  refine sum_congr rfl fun i _ => ?_
  rw [line_getD a z r]
  simp only [line]
  ring

theorem width_add {m n : Nat} (hm : m % 2 = 0) : kind.width (m + n) = kind.width m + kind.width n := by
  cases kind <;> simp only [width] <;> omega

theorem place_lt {m i : Nat} (hm : m % 2 = 0) (hi : i < kind.width m) : kind.place i < m := by
  cases kind <;> simp only [width, place] at * <;> omega

theorem place_add {m : Nat} (i : Nat) (hm : m % 2 = 0) : kind.place (kind.width m + i) = m + kind.place i := by
  cases kind <;> simp only [width, place] <;> omega

/-- **The value of a point in two parts**: the first shifted past the second. -/
theorem evaluate_append {x : List F} (z : List F) (hx : x.length % 2 = 0) :
    kind.evaluate (x ++ z) = kind.evaluate x * 2 ^ kind.width z.length + kind.evaluate z := by
  rw [evaluate, List.length_append, kind.width_add hx, sum_range_add, evaluate, evaluate, sum_mul]
  congr 1
  · refine sum_congr rfl fun i hi => ?_
    rw [mem_range] at hi
    rw [List.getD_append _ _ _ _ (kind.place_lt hx hi), mul_assoc, ← pow_add]
    congr 2
    omega
  · refine sum_congr rfl fun i hi => ?_
    rw [mem_range] at hi
    rw [kind.place_add i hx, List.getD_append_right _ _ _ _ (by omega), Nat.add_sub_cancel_left]
    congr 2
    omega

theorem cast_eq_sum_testBit {w v : Nat} (h : v < 2 ^ w) :
    (v : F) = ∑ i ∈ range w, (if v.testBit (w - 1 - i) then 1 else 0) * 2 ^ (w - 1 - i) := by
  induction w generalizing v with
  | zero =>
    have hzero : v = 0 := by simpa using h
    simp [hzero]
  | succ w ih =>
    have hmod : v % 2 ^ w < 2 ^ w := Nat.mod_lt _ (Nat.two_pow_pos w)
    have hsplit : (v : F) = (if v.testBit w then 1 else 0) * 2 ^ w + ((v % 2 ^ w : Nat) : F) := by
      have hdiv : v / 2 ^ w < 2 := Nat.div_lt_of_lt_mul (by rwa [pow_succ] at h)
      have hbit : v / 2 ^ w = if v.testBit w then 1 else 0 := by
        rw [Nat.testBit_eq_decide_div_mod_eq, Nat.mod_eq_of_lt hdiv]
        rcases Nat.le_one_iff_eq_zero_or_eq_one.mp (Nat.lt_succ_iff.mp hdiv) with h0 | h1
        · rw [h0]
          rfl
        · rw [h1]
          rfl
      conv_lhs => rw [← Nat.div_add_mod v (2 ^ w), hbit]
      split_ifs <;> push_cast <;> ring
    rw [hsplit, ih hmod, sum_range_succ']
    simp only [Nat.sub_zero, Nat.add_sub_cancel]
    rw [add_comm]
    congr 1
    refine sum_congr rfl fun i hi => ?_
    rw [mem_range] at hi
    rw [show w - (i + 1) = w - 1 - i by omega, Nat.testBit_mod_two_pow]
    simp [show w - 1 - i < w by omega]

/-- The digits of a value are the bits at their places. -/
theorem testBit_value {len y i : Nat} (heven : len % 2 = 0) (hlen : len ≤ 128) (hi : i < kind.width len) :
    (kind.value (.ofBits y len)).testBit (kind.width len - 1 - i) = y.testBit (len - 1 - kind.place i) := by
  -- the bits under the mask of the length, of an integer of 128 bits
  have hofNat {b : Nat} (hb : b < len) : (BitVec.ofNat 128 (y % 2 ^ len)).getLsbD b = y.testBit b := by
    rw [BitVec.getLsbD_ofNat, Nat.testBit_mod_two_pow]
    simp [hb, show b < 128 by omega]
  cases kind with
  | identity =>
    simp only [value, LookupBits.ofBits, width, place] at hi ⊢
    rw [Nat.testBit_mod_two_pow]
    simp [show len - 1 - i < len by omega]
  | leftOperand =>
    simp only [value, LookupBits.uninterleave, LookupBits.ofBits, uninterleaveBits, width, place] at hi ⊢
    have hk : len / 2 - 1 - i < len / 2 := by omega
    rw [Nat.testBit_mod_two_pow, decide_eq_true hk, Bool.true_and, BitVec.testBit_toNat,
      getLsbD_gatherBits _ (by omega), BitVec.getLsbD_ushiftRight, hofNat (by omega)]
    congr 1
    omega
  | rightOperand =>
    simp only [value, LookupBits.uninterleave, LookupBits.ofBits, uninterleaveBits, width, place] at hi ⊢
    have hk : len / 2 - 1 - i < len - len / 2 := by omega
    rw [Nat.testBit_mod_two_pow, decide_eq_true hk, Bool.true_and, BitVec.testBit_toNat,
      getLsbD_gatherBits _ (by omega), hofNat (by omega)]
    congr 1
    omega

theorem value_lt (len y : Nat) (heven : len % 2 = 0) : kind.value (.ofBits y len) < 2 ^ kind.width len := by
  cases kind with
  | identity => exact Nat.mod_lt _ (Nat.two_pow_pos _)
  | leftOperand => exact Nat.mod_lt _ (Nat.two_pow_pos _)
  | rightOperand =>
    have hhalf : len - len / 2 = len / 2 := by omega
    simp only [value, LookupBits.uninterleave, LookupBits.ofBits, width, hhalf]
    exact Nat.mod_lt _ (Nat.two_pow_pos _)

/-- **The value of Boolean coordinates** is that of the bits. -/
theorem evaluate_bitsPoint {len : Nat} (y : Nat) (heven : len % 2 = 0) (hlen : len ≤ 128) :
    kind.evaluate (bitsPoint len y : List F) = (kind.value (.ofBits y len) : F) := by
  rw [cast_eq_sum_testBit (kind.value_lt len y heven), evaluate, length_bitsPoint]
  refine sum_congr rfl fun i hi => ?_
  rw [mem_range] at hi
  rw [getD_bitsPoint (kind.place_lt heven hi), kind.testBit_value heven hlen hi]

end Prefix

/-! ## The tables of the suffixes -/

/-- The function of the prefix whose table a suffix has: the weights of the cycles, each with the
number of its suffix. -/
def suffixSum (lookupBits : List LookupBits) (indices : List Nat) (uEvals : List F)
    (number : LookupBits → Nat) (suffixLen : Nat) (x : List F) : F :=
  (indices.map fun j =>
    let (prefixBits, suffixBits) := (lookupBits.getD j ⟨0, 0⟩).split suffixLen
    uEvals.getD j 0 * (number suffixBits : F) * eqMle x (bitsPoint prefixBits.len prefixBits.bits)).sum

theorem affine_suffixSum (lookupBits : List LookupBits) (indices : List Nat) (uEvals : List F)
    (number : LookupBits → Nat) (suffixLen : Nat) :
    Affine (suffixSum lookupBits indices uEvals number suffixLen) :=
  Affine.list_sum fun _ _ => (affine_eqMle _).const_mul _

/-- The lookup bits are indices of `len` bits. -/
def Indices (lookupBits : List LookupBits) (len : Nat) : Prop :=
  ∀ k ∈ lookupBits, k.len = len ∧ k.bits < 2 ^ len

theorem Indices.getD {lookupBits : List LookupBits} {len j : Nat} (h : Indices lookupBits len)
    (hj : j < lookupBits.length) :
    (lookupBits.getD j ⟨0, 0⟩).len = len ∧ (lookupBits.getD j ⟨0, 0⟩).bits < 2 ^ len := by
  rw [List.getD_eq_getElem _ _ hj]
  exact h _ (List.getElem_mem hj)

/-- A split index: what is left of the suffix, and the suffix. -/
theorem LookupBits.split_eq {k : LookupBits} {m n : Nat} (hlen : k.len = m + n) (hbits : k.bits < 2 ^ (m + n)) :
    k.split n = (⟨k.bits / 2 ^ n, m⟩, ⟨k.bits % 2 ^ n, n⟩) := by
  have hprefix : k.bits / 2 ^ n < 2 ^ m :=
    Nat.div_lt_of_lt_mul (by rwa [Nat.mul_comm, ← Nat.pow_add])
  simp only [split, ofBits, hlen, Nat.add_sub_cancel, Nat.mod_eq_of_lt hprefix, Nat.mod_mod]

/-- The equality weights of an index over the last coordinates select its suffix. -/
theorem sum_eqMle_append {x : List F} {m n k : Nat} (hx : x.length = m) (g : Nat → F) :
    ∑ y ∈ range (2 ^ n), eqMle (x ++ bitsPoint n y) (bitsPoint (m + n) k) * g y =
      eqMle x (bitsPoint m (k / 2 ^ n)) * g (k % 2 ^ n) := by
  have hmod : k % 2 ^ n < 2 ^ n := Nat.mod_lt _ (Nat.two_pow_pos n)
  have hsplit : (bitsPoint (m + n) k : List F) = bitsPoint m (k / 2 ^ n) ++ bitsPoint n (k % 2 ^ n) := by
    rw [← bitsPoint_append m n hmod, Nat.mul_comm, Nat.div_add_mod]
  rw [hsplit, ← sum_subset (singleton_subset_iff.mpr (mem_range.mpr hmod)) fun y hy hne => ?_]
  · rw [sum_singleton, eqMle_append (by rw [hx, length_bitsPoint]), eqMle_bitsPoint hmod hmod, if_pos rfl,
      mul_one]
  · rw [mem_singleton] at hne
    rw [eqMle_append (by rw [hx, length_bitsPoint]), eqMle_bitsPoint (mem_range.mp hy) hmod, if_neg hne,
      mul_zero, zero_mul]

section Phase

variable {lookupBits : List LookupBits} {indices : List Nat} {uEvals : List F} {len m n : Nat}

/-- **The direct sum by the suffixes**: the prefix times the table of its shift, and the table of
the values. -/
theorem directSum_eq (kind : Prefix) (hbits : Indices lookupBits len)
    (hindices : ∀ j ∈ indices, j < lookupBits.length) (hlen : len = m + n) (hm : m % 2 = 0)
    (hn : n % 2 = 0) (hfits : len ≤ 128) {x : List F} (hx : x.length = m) :
    directSum kind lookupBits indices uEvals x n =
      kind.evaluate x * suffixSum lookupBits indices uEvals (fun b => (kind.suffixMle b).1) n x +
        suffixSum lookupBits indices uEvals (fun b => (kind.suffixMle b).2) n x := by
  have hlength (y : Nat) : (x ++ bitsPoint n y).length = m + n := by rw [List.length_append, hx, length_bitsPoint]
  simp only [directSum, weightAt, suffixSum, hlength]
  induction indices with
  | nil => simp
  | cons j indices ih =>
    obtain ⟨hklen, hkbits⟩ := hbits.getD (hindices j (List.mem_cons_self ..))
    rw [hlen] at hklen hkbits
    have hcycle := sum_eqMle_append (n := n) (k := (lookupBits.getD j ⟨0, 0⟩).bits) hx
      fun y => kind.evaluate (x ++ bitsPoint n y)
    rw [kind.evaluate_append _ (hx ▸ hm), length_bitsPoint, kind.evaluate_bitsPoint _ hn (by omega)] at hcycle
    simp only [List.map_cons, List.sum_cons, add_mul, sum_add_distrib,
      ih fun i hi => hindices i (List.mem_cons_of_mem _ hi), LookupBits.split_eq hklen hkbits, mul_assoc]
    rw [← mul_sum, hcycle]
    simp only [Prefix.suffixMle, LookupBits.ofBits, Nat.mod_mod]
    push_cast
    ring

/-- The weights of the cycles with the coordinates of `x` bound. -/
def Condensed (lookupBits : List LookupBits) (len : Nat) (uEvals x current : List F) : Prop :=
  current.length = lookupBits.length ∧ ∀ j < lookupBits.length, current.getD j 0 = uEvals.getD j 0 *
    eqMle x (bitsPoint x.length ((lookupBits.getD j ⟨0, 0⟩).bits / 2 ^ (len - x.length)))

/-- The chunk that a prefix ends in. -/
theorem eqMle_chunk (x z : List F) (c k : Nat) :
    eqMle (x ++ z) (bitsPoint (x.length + c) k) =
      eqMle x (bitsPoint x.length (k / 2 ^ c)) * eqMle z (bitsPoint c (k % 2 ^ c)) := by
  have hmod : k % 2 ^ c < 2 ^ c := Nat.mod_lt _ (Nat.two_pow_pos c)
  have hsplit := bitsPoint_append (F := F) x.length c (i := k / 2 ^ c) hmod
  rw [Nat.mul_comm, Nat.div_add_mod] at hsplit
  rw [hsplit, eqMle_append (by rw [length_bitsPoint])]

/-- What a cycle adds to the tables at an index: its weight if its chunk is this. -/
theorem bucket_eq {d : Decomposition F} {x current : List F} {c j : Nat} (hd : d.suffixLen = n)
    (hc : d.chunkLen = c) (hbits : Indices lookupBits len) (hj : j < lookupBits.length)
    (hcurrent : Condensed lookupBits len uEvals x current) (hlen : len = x.length + c + n) {i : Nat}
    (hi : i < 2 ^ c) :
    d.bucket current lookupBits i j = uEvals.getD j 0 *
      eqMle (x ++ bitsPoint c i) (bitsPoint (x.length + c) ((lookupBits.getD j ⟨0, 0⟩).bits / 2 ^ n)) := by
  obtain ⟨hklen, hkbits⟩ := hbits.getD hj
  rw [hlen] at hklen hkbits
  have hrest : len - x.length = n + c := by omega
  have hmod := Nat.mod_lt ((lookupBits.getD j ⟨0, 0⟩).bits / 2 ^ n) (Nat.two_pow_pos c)
  rw [Decomposition.bucket, hd, hc, LookupBits.split_eq hklen hkbits, Nat.and_two_pow_sub_one_eq_mod,
    hcurrent.2 j hj, hrest, eqMle_chunk, eqMle_bitsPoint hi hmod, Nat.pow_add, Nat.div_div_eq_div_mul]
  by_cases hsame : (lookupBits.getD j ⟨0, 0⟩).bits / 2 ^ n % 2 ^ c = i
  · rw [if_pos hsame, if_pos hsame.symm, mul_one]
  · rw [if_neg hsame, if_neg (Ne.symm hsame), mul_zero, mul_zero]

/-- **The tables of a phase** are those of the functions of the prefix. -/
theorem initQ_eq {d : Decomposition F} {x current : List F} {c : Nat} (hd : d.suffixLen = n)
    (hc : d.chunkLen = c) (hbits : Indices lookupBits len) (hindices : ∀ j ∈ indices, j < lookupBits.length)
    (hcurrent : Condensed lookupBits len uEvals x current) (hlen : len = x.length + c + n) :
    d.initQ current indices lookupBits = .some
      (tableAt (suffixSum lookupBits indices uEvals (fun b => (d.kind.suffixMle b).1) n) x c,
      tableAt (suffixSum lookupBits indices uEvals (fun b => (d.kind.suffixMle b).2) n) x c) := by
  rw [Decomposition.initQ, if_pos hindices]
  simp only [hd, hc]
  congr 2
  all_goals
    refine tableOf_congr fun i hi => congrArg List.sum (List.map_congr_left fun j hj => ?_)
    obtain ⟨hklen, hkbits⟩ := hbits.getD (hindices j hj)
    rw [hlen] at hklen hkbits
    rw [bucket_eq hd hc hbits (hindices j hj) hcurrent hlen hi, LookupBits.split_eq hklen hkbits]
    ring

theorem phaseTable_eq {c : Nat} {rs : List F} (h : rs.length = c) : phaseTable c rs = .some (eqTable rs) := by
  obtain ⟨m, hm⟩ : ∃ m, 2 ^ c = m + 1 := ⟨2 ^ c - 1, by have := Nat.two_pow_pos c; omega⟩
  have hreset : ExpandingTable.reset (ExpandingTable.new (2 ^ c) .highToLow : ExpandingTable F) 1 =
      .some { ExpandingTable.new (2 ^ c) .highToLow with values := 1 :: List.replicate m 0, len := 1 } := by
    rw [hm]
    rfl
  obtain ⟨t, hrun, hvalues⟩ := @ExpandingTable.foldlM_update F _ rs
    { ExpandingTable.new (2 ^ c) .highToLow with values := 1 :: List.replicate m 0, len := 1 } (2 ^ c)
    ⟨by simp [hm], fun _ => List.length_replicate⟩ (by simp [h])
  rw [phaseTable, hreset]
  simp only [Option.bind_eq_bind, Option.bind_some, hrun, hvalues]
  congr 1
  exact (EqPolynomial.foldl_expandLow [1] rs).trans (tensor_one_left _)

/-- The condensation binds the coordinates of the phase. -/
theorem condense_eq {x current rs : List F} {c : Nat} (hbits : Indices lookupBits len)
    (hcurrent : Condensed lookupBits len uEvals x current) (hlen : len = x.length + c + n)
    (hrs : rs.length = c) :
    ∃ next, condense (eqTable rs) c n lookupBits current = .some next ∧
      Condensed lookupBits len uEvals (x ++ rs) next := by
  have hentry (k : LookupBits) (u : F) : (do
      .some (u * (← (eqTable rs)[(k.split n).1.bits &&& (2 ^ c - 1)]?)) : Option F) =
      .some (u * eqAt rs ((k.split n).1.bits % 2 ^ c)) := by
    have hmod : (k.split n).1.bits % 2 ^ c < (eqTable rs).length := by
      rw [length_eqTable, hrs]
      exact Nat.mod_lt _ (Nat.two_pow_pos c)
    rw [Nat.and_two_pow_sub_one_eq_mod, List.getElem?_eq_getElem hmod, eqAt, List.getD_eq_getElem _ _ hmod]
    rfl
  refine ⟨_, mapM_of_some fun ku _ => hentry ku.1 ku.2, ?_, fun j hj => ?_⟩
  · rw [List.length_map, List.length_zip, hcurrent.1, Nat.min_self]
  · have hj' : j < current.length := hcurrent.1 ▸ hj
    have hzip : j < (List.zip lookupBits current).length := by
      rw [List.length_zip, hcurrent.1, Nat.min_self]
      exact hj
    obtain ⟨hklen, hkbits⟩ := hbits.getD hj
    rw [hlen] at hklen hkbits
    have hmod := Nat.mod_lt ((lookupBits.getD j ⟨0, 0⟩).bits / 2 ^ n) (Nat.two_pow_pos c)
    have hcycle := hcurrent.2 j hj
    have hrest : len - x.length = n + c := by omega
    have hrest' : len - (x ++ rs).length = n := by rw [List.length_append, hrs]; omega
    rw [List.getD_eq_getElem _ _ (by rwa [List.length_map]), List.getElem_map, List.getElem_zip,
      ← List.getD_eq_getElem current 0 hj', ← List.getD_eq_getElem lookupBits ⟨0, 0⟩ hj,
      LookupBits.split_eq hklen hkbits, hcycle, hrest, hrest', List.length_append, hrs, eqMle_chunk,
      eqAt_eq_eqMle rs (by rwa [hrs]), hrs, Nat.pow_add, Nat.div_div_eq_div_mul, mul_assoc]

end Phase

/-! ## The fused initialiser -/

section Fused

variable {left right identity : Decomposition F} {uEvals : List F} {lookupBits : List LookupBits}
variable {isInterleaved : List Bool}

theorem zip_cycles (hu : uEvals.length = lookupBits.length) (hi : isInterleaved.length = lookupBits.length) :
    lookupBits.zip (uEvals.zip isInterleaved) = tableOf lookupBits.length fun j =>
      (lookupBits.getD j ⟨0, 0⟩, uEvals.getD j 0, isInterleaved.getD j false) := by
  refine List.ext_getElem (by simp [hu, hi]) fun j h1 h2 => ?_
  have hj : j < lookupBits.length := by simpa using h2
  simp only [tableOf, List.getElem_zip, List.getElem_map, List.getElem_range]
  rw [List.getD_eq_getElem _ _ hj, List.getD_eq_getElem _ _ (hu ▸ hj), List.getD_eq_getElem _ _ (hi ▸ hj)]

theorem sum_filter {ι : Type} (p : ι → Bool) (f : ι → F) (l : List ι) :
    ((l.filter p).map f).sum = (l.map fun i => if p i then f i else 0).sum := by
  induction l with
  | nil => rfl
  | cons i l ih => cases hp : p i <;> simp [hp, ih]

/-- A table of `init_Q` is one of the fused. -/
theorem rafRow_eq (d : Decomposition F) {chunkLen suffixLen : Nat} (hchunk : d.chunkLen = chunkLen)
    (hsuffix : d.suffixLen = suffixLen) (hu : uEvals.length = lookupBits.length)
    (hi : isInterleaved.length = lookupBits.length) (number : LookupBits → Nat) :
    (tableOf (2 ^ d.chunkLen) fun rIndex => ((cyclesOf d.kind isInterleaved lookupBits.length).map fun j =>
      d.bucket uEvals lookupBits rIndex j * (number ((lookupBits.getD j ⟨0, 0⟩).split d.suffixLen).2 : F)).sum) =
      rafRow chunkLen suffixLen (lookupBits.zip (uEvals.zip isInterleaved)) (decide (d.kind ≠ .identity)) number := by
  subst hchunk hsuffix
  rw [rafRow, zip_cycles hu hi, cyclesOf]
  refine tableOf_congr fun rIndex _ => ?_
  rw [sum_filter, map_tableOf]
  refine congrArg List.sum (List.map_congr_left fun j _ => ?_)
  simp only [Decomposition.bucket, decide_eq_true_eq]
  split_ifs <;> simp_all

/-- The shift multiplies the sums, or is one. -/
theorem rafRow_shift (chunkLen suffixLen : Nat) (cycles : List (LookupBits × F × Bool)) (interleaved : Bool)
    (shift : Nat) : ((rafRow chunkLen suffixLen cycles interleaved fun _ => 1).map fun v =>
      if shift = 1 then v else v * (shift : F)) = rafRow chunkLen suffixLen cycles interleaved fun _ => shift := by
  rw [rafRow, rafRow, map_tableOf]
  refine tableOf_congr fun rIndex _ => ?_
  have hmul : ∀ v : F, (if shift = 1 then v else v * (shift : F)) = v * (shift : F) := by
    intro v
    by_cases hone : shift = 1
    · rw [if_pos hone, hone, Nat.cast_one, mul_one]
    · rw [if_neg hone]
  rw [hmul, ← List.sum_map_mul_right]
  refine congrArg List.sum (List.map_congr_left fun (k, u, isInterleaved) _ => ?_)
  dsimp only
  split_ifs <;> simp

/-- What `init_Q` makes of the cycles of a decomposition. -/
theorem initQ_cyclesOf (d : Decomposition F) {chunkLen suffixLen : Nat} (hchunk : d.chunkLen = chunkLen)
    (hsuffix : d.suffixLen = suffixLen) (hu : uEvals.length = lookupBits.length)
    (hi : isInterleaved.length = lookupBits.length) :
    d.initQ uEvals (cyclesOf d.kind isInterleaved lookupBits.length) lookupBits = .some
      (rafRow chunkLen suffixLen (lookupBits.zip (uEvals.zip isInterleaved)) (decide (d.kind ≠ .identity))
        fun _ => 2 ^ d.kind.width suffixLen,
      rafRow chunkLen suffixLen (lookupBits.zip (uEvals.zip isInterleaved)) (decide (d.kind ≠ .identity))
        d.kind.value) := by
  have hindices : ∀ j ∈ cyclesOf d.kind isInterleaved lookupBits.length, j < lookupBits.length :=
    fun j hj => List.mem_range.mp (List.mem_filter.mp hj).1
  rw [Decomposition.initQ, if_pos hindices, ← rafRow_eq d hchunk hsuffix hu hi, ← rafRow_eq d hchunk hsuffix hu hi]
  subst hsuffix
  rfl

/-- **The fused initialiser** makes the tables that `init_Q` makes of each. -/
theorem initQRaf_eq (hleft : left.kind = .leftOperand) (hright : right.kind = .rightOperand)
    (hidentity : identity.kind = .identity) (hchunk : right.chunkLen = left.chunkLen)
    (hchunk' : identity.chunkLen = left.chunkLen) (hsuffix : right.suffixLen = left.suffixLen)
    (hsuffix' : identity.suffixLen = left.suffixLen) (hu : uEvals.length = lookupBits.length)
    (hi : isInterleaved.length = lookupBits.length) :
    let cycles := fun kind => cyclesOf kind isInterleaved lookupBits.length
    let raf := initQRaf left right identity uEvals lookupBits isInterleaved
    left.initQ uEvals (cycles .leftOperand) lookupBits = .some raf.1.q ∧
      right.initQ uEvals (cycles .rightOperand) lookupBits = .some raf.2.1.q ∧
      identity.initQ uEvals (cycles .identity) lookupBits = .some raf.2.2.q := by
  have htables := fun (d : Decomposition F) (h1 : d.chunkLen = left.chunkLen) (h2 : d.suffixLen = left.suffixLen) =>
    initQ_cyclesOf d h1 h2 hu hi
  intro cycles raf
  refine ⟨?_, ?_, ?_⟩
  · have hq := htables left rfl rfl
    rw [hleft] at hq
    simp only [cycles, raf, initQRaf, rafRow_shift, hq]
    rfl
  · have hq := htables right hchunk hsuffix
    rw [hright] at hq
    simp only [cycles, raf, initQRaf, rafRow_shift, hq]
    rfl
  · have hq := htables identity hchunk' hsuffix'
    rw [hidentity] at hq
    simp only [cycles, raf, initQRaf, rafRow_shift, hq]
    rfl

end Fused

end LightningJolt
