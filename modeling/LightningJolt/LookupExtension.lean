/-
The MLE of a lookup table on a boolean index (`jolt-core/src/zkvm/lookup_table`): over
the integers first, where each formula is the entry as a number, and from there over
any ring.
-/
import LightningJolt.LookupEntry
import LightningJolt.LookupMle

namespace LightningJolt

open Finset

/-! ## Change of ring -/

namespace LookupMle

variable {R F : Type} [CommRing R] [CommRing F] (φ : R →+* F) (r : Nat → R)

theorem map_eqBit (i : Nat) : eqBit (fun k => φ (r k)) i = φ (eqBit r i) := by
  simp only [eqBit, map_add, map_mul, map_sub, map_one]

theorem map_xorBit (i : Nat) : xorBit (fun k => φ (r k)) i = φ (xorBit r i) := by
  simp only [xorBit, map_add, map_mul, map_sub, map_one]

theorem map_compareLoop (n : Nat) :
    compareLoop (fun k => φ (r k)) n = (φ (compareLoop r n).1, φ (compareLoop r n).2) := by
  induction n with
  | zero => simp only [compareLoop, map_zero, map_one]
  | succ n ih => simp only [compareLoop, ih, map_eqBit, map_add, map_mul, map_sub, map_one]

theorem map_shiftMle (n : Nat) : shiftMle (fun k => φ (r k)) n = φ (shiftMle r n) := by
  induction n with
  | zero => simp only [shiftMle, map_zero]
  | succ n ih => simp only [shiftMle, ih, map_add, map_mul, map_one]

theorem map_rotateMle (skip n : Nat) : rotateMle (fun k => φ (r k)) skip n =
    (φ (rotateMle r skip n).1, φ (rotateMle r skip n).2.1, φ (rotateMle r skip n).2.2) := by
  induction n with
  | zero => simp only [rotateMle, map_zero, map_one]
  | succ n ih =>
    simp only [rotateMle, ih, map_add, map_mul, map_sub, map_one, map_pow, map_ofNat]

end LookupMle

open LookupMle in
/-- The formulas commute with ring homomorphisms. -/
theorem LookupTables.map_mle {R F : Type} [CommRing R] [CommRing F] (φ : R →+* F) (r : Nat → R)
    (table : LookupTables) : table.mle (fun k => φ (r k)) = φ (table.mle r) := by
  have hite (p : Prop) [Decidable p] (a b : R) : φ (if p then a else b) = if p then φ a else φ b :=
    apply_ite φ p a b
  cases table <;>
    simp only [mle, map_eqBit, map_xorBit, map_compareLoop, map_shiftMle, map_rotateMle, byteMle,
      map_sum, map_prod, map_add, map_sub, map_mul, map_pow, map_one, map_zero, map_ofNat, hite]

/-! ## Bits -/

/-- A bit as a number. -/
def ofBit (b : Bool) : ℤ := if b then 1 else 0

theorem ofBit_cases (b : Bool) : ofBit b = 0 ∨ ofBit b = 1 := by
  cases b
  · exact .inl rfl
  · exact .inr rfl

/-- The point is the index, the most significant bit first. -/
def AtIndex (r : Nat → ℤ) (index : U128) : Prop := ∀ k < 128, r k = ofBit (index.getLsbD (127 - k))

/-- The same of two operands, interleaved. -/
structure AtOperands (r : Nat → ℤ) (x y : U64) : Prop where
  left : ∀ i < 64, r (2 * i) = ofBit (x.getLsbD (63 - i))
  right : ∀ i < 64, r (2 * i + 1) = ofBit (y.getLsbD (63 - i))

theorem AtIndex.operands {r : Nat → ℤ} {index : U128} (h : AtIndex r index) :
    AtOperands r (uninterleaveBits index).1 (uninterleaveBits index).2 where
  left i hi := by
    rw [h (2 * i) (by omega), uninterleaveBits, getLsbD_gatherBits _ (by omega),
      BitVec.getLsbD_ushiftRight]
    congr 2
    omega
  right i hi := by
    rw [h (2 * i + 1) (by omega), uninterleaveBits, getLsbD_gatherBits _ (by omega)]
    congr 2
    omega

theorem sum_testBit (n z : Nat) :
    ∑ i ∈ range n, (2 : ℤ) ^ (n - 1 - i) * ofBit (z.testBit (n - 1 - i)) = ((z % 2 ^ n : Nat) : ℤ) := by
  rw [Finset.sum_range_reflect (fun j => (2 : ℤ) ^ j * ofBit (z.testBit j)) n]
  induction n with
  | zero => simp [Nat.mod_one]
  | succ n ih =>
    rw [sum_range_succ, ih, Nat.mod_pow_succ, Nat.testBit_eq_decide_div_mod_eq]
    rcases Nat.mod_two_eq_zero_or_one (z / 2 ^ n) with h | h <;> simp [ofBit, h]

/-- A word from its bits, the highest first. -/
theorem sum_bits {w : Nat} {z : BitVec w} {f : Nat → ℤ}
    (h : ∀ i < w, f i = 2 ^ (w - 1 - i) * ofBit (z.getLsbD (w - 1 - i))) :
    ∑ i ∈ range w, f i = (z.toNat : ℤ) := by
  have hsum := sum_testBit w z.toNat
  rw [Nat.mod_eq_of_lt z.isLt] at hsum
  rw [← hsum]
  refine sum_congr rfl fun i hi => ?_
  rw [h i (mem_range.mp hi), BitVec.testBit_toNat]

theorem prod_ofBit (n : Nat) {f : Nat → ℤ} {p : Nat → Bool} (h : ∀ i < n, f i = ofBit (p i)) :
    ∏ i ∈ range n, f i = ofBit (decide (∀ i < n, p i = true)) := by
  induction n with
  | zero => simp [ofBit]
  | succ n ih =>
    rw [prod_range_succ, ih fun i hi => h i (Nat.lt_succ_of_lt hi), h n (Nat.lt_succ_self n)]
    have hsplit : (∀ i < n + 1, p i = true) ↔ (∀ i < n, p i = true) ∧ p n = true := by
      constructor
      · exact fun hall => ⟨fun i hi => hall i (Nat.lt_succ_of_lt hi), hall n (Nat.lt_succ_self n)⟩
      · rintro ⟨hall, hn⟩ i hi
        rcases Nat.lt_succ_iff_lt_or_eq.mp hi with hi | rfl
        · exact hall i hi
        · exact hn
    simp only [hsplit, Bool.decide_and, Bool.decide_eq_true]
    cases p n <;> cases decide (∀ i < n, p i = true) <;> rfl

theorem boolEntry_toNat (b : Bool) : ((boolEntry b).toNat : ℤ) = ofBit b := by
  cases b <;> rfl

/-- The first bits of a word, one more of them. -/
theorem div_two_pow_succ (z : U64) {n : Nat} (hn : n < 64) :
    z.toNat / 2 ^ (64 - (n + 1)) = 2 * (z.toNat / 2 ^ (64 - n)) + (z.getLsbD (63 - n)).toNat := by
  have hpow : 2 ^ (64 - n) = 2 ^ (64 - (n + 1)) * 2 := by
    rw [← pow_succ]
    congr 1
    omega
  have hdiv : z.toNat / 2 ^ (64 - n) = z.toNat / 2 ^ (64 - (n + 1)) / 2 := by
    rw [hpow, Nat.div_div_eq_div_mul]
  have hbit : (z.getLsbD (63 - n)).toNat = z.toNat / 2 ^ (64 - (n + 1)) % 2 := by
    rw [← BitVec.testBit_toNat, Nat.testBit_eq_decide_div_mod_eq, show 64 - (n + 1) = 63 - n by omega]
    rcases Nat.mod_two_eq_zero_or_one (z.toNat / 2 ^ (63 - n)) with h | h <;> simp [h]
  rw [hbit, hdiv]
  omega

/-! ## Sums over bits -/

section Sums

variable {r : Nat → ℤ} {x y : U64} {index : U128}

theorem xorBit_eq (h : AtOperands r x y) {i : Nat} (hi : i < 64) :
    LookupMle.xorBit r i = ofBit ((x ^^^ y).getLsbD (63 - i)) := by
  rw [LookupMle.xorBit, h.left i hi, h.right i hi, BitVec.getLsbD_xor]
  cases x.getLsbD (63 - i) <;> cases y.getLsbD (63 - i) <;> rfl

theorem eqBit_eq (h : AtOperands r x y) {i : Nat} (hi : i < 64) :
    LookupMle.eqBit r i = ofBit (x.getLsbD (63 - i) == y.getLsbD (63 - i)) := by
  rw [LookupMle.eqBit, h.left i hi, h.right i hi]
  cases x.getLsbD (63 - i) <;> cases y.getLsbD (63 - i) <;> rfl

theorem mle_and (h : AtOperands r x y) : LookupTables.And.mle r = ((x &&& y).toNat : ℤ) := by
  refine sum_bits (w := 64) fun i hi => ?_
  rw [h.left i hi, h.right i hi, BitVec.getLsbD_and, mul_assoc]
  cases x.getLsbD (63 - i) <;> cases y.getLsbD (63 - i) <;> simp [ofBit]

theorem mle_andn (h : AtOperands r x y) : LookupTables.Andn.mle r = ((x &&& ~~~y).toNat : ℤ) := by
  refine sum_bits (w := 64) fun i hi => ?_
  have hlt : 64 - 1 - i < 64 := by omega
  rw [h.left i hi, h.right i hi, BitVec.getLsbD_and, BitVec.getLsbD_not, mul_assoc]
  cases x.getLsbD (63 - i) <;> cases y.getLsbD (63 - i) <;> simp [ofBit, hlt]

theorem mle_or (h : AtOperands r x y) : LookupTables.Or.mle r = ((x ||| y).toNat : ℤ) := by
  refine sum_bits (w := 64) fun i hi => ?_
  rw [h.left i hi, h.right i hi, BitVec.getLsbD_or]
  cases x.getLsbD (63 - i) <;> cases y.getLsbD (63 - i) <;> simp [ofBit]

theorem mle_xor (h : AtOperands r x y) : LookupTables.Xor.mle r = ((x ^^^ y).toNat : ℤ) := by
  refine sum_bits (w := 64) fun i hi => ?_
  rw [xorBit_eq h hi]

theorem mle_rangeCheck (h : AtIndex r index) :
    LookupTables.RangeCheck.mle r = ((index.setWidth 64).toNat : ℤ) := by
  refine sum_bits (w := 64) fun i hi => ?_
  have hlt : 64 - 1 - i < 64 := by omega
  rw [h (64 + i) (by omega), BitVec.getLsbD_setWidth, show 127 - (64 + i) = 64 - 1 - i by omega]
  simp [hlt]

theorem mle_rangeCheckAligned (h : AtIndex r index) :
    LookupTables.RangeCheckAligned.mle r = ((index.setWidth 64 &&& ~~~1).toNat : ℤ) := by
  have hone : ∀ j < 64, (1 : U64).getLsbD j = decide (j = 0) := by decide
  have hlast : (index.setWidth 64 &&& ~~~1 : U64).getLsbD 0 = false := by
    simp
  have hsum := sum_bits (w := 64) (z := (index.setWidth 64 &&& ~~~1 : U64))
    (f := fun i => 2 ^ (63 - i) * ofBit ((index.setWidth 64 &&& ~~~1 : U64).getLsbD (63 - i)))
    fun i _ => rfl
  rw [sum_range_succ, hlast] at hsum
  rw [← hsum, show ofBit false = 0 from rfl, mul_zero, add_zero]
  refine sum_congr rfl fun i hi => ?_
  have hi' := mem_range.mp hi
  rw [h (64 + i) (by omega), BitVec.getLsbD_and, BitVec.getLsbD_not, BitVec.getLsbD_setWidth,
    hone (63 - i) (by omega), show 127 - (64 + i) = 63 - i by omega]
  simp [show 63 - i < 64 by omega, show ¬ 63 - i = 0 by omega]

theorem mle_upperWord (h : AtIndex r index) :
    LookupTables.UpperWord.mle r = (((index >>> 64).setWidth 64).toNat : ℤ) := by
  refine sum_bits (w := 64) fun i hi => ?_
  have hlt : 64 - 1 - i < 64 := by omega
  rw [h i (by omega), BitVec.getLsbD_setWidth, BitVec.getLsbD_ushiftRight,
    show 127 - i = 64 + (64 - 1 - i) by omega]
  simp [hlt]

/-- The low half of the second operand. -/
theorem sum_lowerHalf (h : AtIndex r index) :
    ∑ i ∈ range 32, 2 ^ (31 - i) * r (96 + i) = ((index.toNat % 2 ^ 32 : Nat) : ℤ) := by
  rw [← sum_testBit 32 index.toNat]
  refine sum_congr rfl fun i hi => ?_
  have hi' := mem_range.mp hi
  rw [h (96 + i) (by omega), BitVec.testBit_toNat, show 127 - (96 + i) = 32 - 1 - i by omega]

theorem mle_lowerHalfWord (h : AtIndex r index) : LookupTables.LowerHalfWord.mle r =
    ((BitVec.ofNat 64 (index.toNat % 2 ^ 32)).toNat : ℤ) := by
  have hlt : index.toNat % 2 ^ 32 < 2 ^ 64 := by omega
  rw [BitVec.toNat_ofNat, Nat.mod_eq_of_lt hlt]
  exact sum_lowerHalf h

theorem sum_two_pow (n : Nat) : ∑ i ∈ range n, (2 : ℤ) ^ (n - 1 - i) = 2 ^ n - 1 := by
  rw [Finset.sum_range_reflect (fun j => (2 : ℤ) ^ j) n]
  induction n with
  | zero => simp
  | succ n ih =>
    rw [sum_range_succ, ih, pow_succ]
    ring

theorem mle_signExtendHalfWord (h : AtIndex r index) : LookupTables.SignExtendHalfWord.mle r =
    ((signExtendHalf (BitVec.ofNat 64 (index.toNat % 2 ^ 32))).toNat : ℤ) := by
  have hlower := sum_lowerHalf h
  have hupper := sum_two_pow 32
  have hsign : r 96 = ofBit (index.toNat.testBit 31) := by
    rw [h 96 (by decide), BitVec.testBit_toNat]
  have hmle : LookupTables.SignExtendHalfWord.mle r =
      ((index.toNat % 2 ^ 32 : Nat) : ℤ) + (2 ^ 32 - 1) * r 96 * 2 ^ 32 := by
    rw [LookupTables.mle, hlower, ← sum_mul, hupper]
  rw [hmle, hsign]
  generalize hv : index.toNat % 2 ^ 32 = v
  have hvlt : v < 2 ^ 32 := by
    rw [← hv]
    exact Nat.mod_lt _ (by decide)
  have hbit : index.toNat.testBit 31 = v.testBit 31 := by
    rw [← hv, Nat.testBit_mod_two_pow]
    rfl
  rw [hbit]
  have htoNat : (BitVec.ofNat 64 v).toNat = v := by
    rw [BitVec.toNat_ofNat, Nat.mod_eq_of_lt (by omega)]
  have hcond : ((BitVec.ofNat 64 v) >>> 31 &&& 1 = 1) ↔ v.testBit 31 = true := by
    rw [← BitVec.toNat_inj, BitVec.toNat_and, BitVec.toNat_ushiftRight, htoNat,
      Nat.testBit_eq_decide_div_mod_eq, decide_eq_true_iff, Nat.shiftRight_eq_div_pow]
    change v / 2 ^ 31 &&& 1 = 1 ↔ _
    rw [Nat.and_one_is_mod]
  rw [signExtendHalf]
  by_cases hb : v.testBit 31 = true
  · rw [if_pos (hcond.mpr hb), hb, BitVec.toNat_or, htoNat]
    have hmask : ((((1 : U64) <<< 32 - 1) <<< 32) : U64).toNat = (2 ^ 32 - 1) * 2 ^ 32 := by decide
    have hor : v ||| (2 ^ 32 - 1) * 2 ^ 32 = (2 ^ 32 - 1) * 2 ^ 32 + v := by
      rw [Nat.or_comm, Nat.mul_comm, Nat.two_pow_add_eq_or_of_lt hvlt]
    rw [hmask, hor]
    simp only [ofBit, if_true]
    push_cast
    ring
  · rw [if_neg fun hc => hb (hcond.mp hc), htoNat]
    simp [ofBit, hb]

end Sums

/-! ## Comparisons and products -/

section Comparisons

variable {r : Nat → ℤ} {x y : U64} {index : U128}

/-- After `n` rounds the loop has compared the first `n` bits. -/
theorem compareLoop_eq (h : AtOperands r x y) {n : Nat} (hn : n ≤ 64) :
    LookupMle.compareLoop r n =
      (ofBit (decide (x.toNat / 2 ^ (64 - n) < y.toNat / 2 ^ (64 - n))),
        ofBit (decide (x.toNat / 2 ^ (64 - n) = y.toNat / 2 ^ (64 - n)))) := by
  induction n with
  | zero =>
    rw [Nat.div_eq_of_lt x.isLt, Nat.div_eq_of_lt y.isLt]
    rfl
  | succ n ih =>
    have hx := div_two_pow_succ x (show n < 64 by omega)
    have hy := div_two_pow_succ y (show n < 64 by omega)
    rw [LookupMle.compareLoop, ih (by omega), eqBit_eq h (by omega), h.left n (by omega),
      h.right n (by omega)]
    generalize x.toNat / 2 ^ (64 - n) = a at *
    generalize y.toNat / 2 ^ (64 - n) = b at *
    generalize x.toNat / 2 ^ (64 - (n + 1)) = a' at *
    generalize y.toNat / 2 ^ (64 - (n + 1)) = b' at *
    generalize x.getLsbD (63 - n) = s at *
    generalize y.getLsbD (63 - n) = t at *
    cases s <;> cases t <;>
      simp only [Bool.toNat_true, Bool.toNat_false] at hx hy <;>
      simp only [ofBit, decide_eq_true_eq, Prod.mk.injEq, BEq.rfl, Bool.false_eq_true,
        if_true, if_false, reduceCtorEq, beq_iff_eq] <;>
      constructor <;> split_ifs <;> first | rfl | omega

theorem lt_eq (h : AtOperands r x y) : (LookupMle.compareLoop r 64).1 = ofBit (decide (x < y)) := by
  rw [compareLoop_eq h (Nat.le_refl 64)]
  simp [BitVec.lt_def]

theorem eq_eq (h : AtOperands r x y) : (LookupMle.compareLoop r 64).2 = ofBit (x == y) := by
  rw [compareLoop_eq h (Nat.le_refl 64)]
  have hiff : x.toNat = y.toNat ↔ x = y := BitVec.toNat_inj
  simp [hiff, beq_eq_decide]

theorem prod_eqBit (h : AtOperands r x y) : ∏ i ∈ range 64, LookupMle.eqBit r i = ofBit (x == y) := by
  rw [prod_ofBit 64 fun i hi => eqBit_eq h hi]
  congr 1
  rw [beq_eq_decide]
  refine decide_eq_decide.mpr ⟨fun hall => ?_, fun heq i _ => by rw [heq, beq_self_eq_true]⟩
  refine BitVec.eq_of_getLsbD_eq fun i hi => ?_
  have hi' := beq_iff_eq.mp (hall (63 - i) (by omega))
  rwa [show 63 - (63 - i) = i by omega] at hi'

/-- No bit of a word is set. -/
theorem prod_clear_of {w : Nat} {z : BitVec w} {f : Nat → ℤ}
    (h : ∀ i < w, f i = ofBit (!z.getLsbD (w - 1 - i))) :
    ∏ i ∈ range w, f i = ofBit (decide (z = 0)) := by
  rw [prod_ofBit w h]
  congr 1
  refine decide_eq_decide.mpr ⟨fun hall => ?_, fun heq i _ => by rw [heq]; simp⟩
  refine BitVec.eq_of_getLsbD_eq fun i hi => ?_
  have hi' := hall (w - 1 - i) (by omega)
  rw [show w - 1 - (w - 1 - i) = i by omega] at hi'
  simpa using hi'

theorem prod_clear {z : U64} {f : Nat → ℤ} (h : ∀ i < 64, f i = ofBit (!z.getLsbD (63 - i))) :
    ∏ i ∈ range 64, f i = ofBit (decide (z = 0)) :=
  prod_clear_of h

theorem ofBit_not (b : Bool) : 1 - ofBit b = ofBit (!b) := by
  cases b <;> rfl

theorem sign_eq (h : AtOperands r x y) : r 0 = ofBit x.msb ∧ r 1 = ofBit y.msb := by
  have hx := h.left 0 (by decide)
  have hy := h.right 0 (by decide)
  simp only [Nat.mul_zero, Nat.zero_add, Nat.sub_zero] at hx hy
  rw [hx, hy, BitVec.msb_eq_getLsbD_last, BitVec.msb_eq_getLsbD_last]
  exact ⟨rfl, rfl⟩

theorem signed_lt_eq (h : AtOperands r x y) :
    r 0 - r 1 + (LookupMle.compareLoop r 64).1 = ofBit (x.slt y) := by
  obtain ⟨hx, hy⟩ := sign_eq h
  have hxlt := x.isLt
  have hylt := y.isLt
  rw [hx, hy, lt_eq h, BitVec.slt, BitVec.toInt_eq_msb_cond, BitVec.toInt_eq_msb_cond]
  have hxmsb : x.msb = decide (2 ^ 63 ≤ x.toNat) := BitVec.msb_eq_decide x
  have hymsb : y.msb = decide (2 ^ 63 ≤ y.toNat) := BitVec.msb_eq_decide y
  rw [hxmsb, hymsb]
  simp only [ofBit, decide_eq_true_eq, BitVec.lt_def]
  split_ifs <;> omega

theorem mle_validUnsignedRemainder (h : AtOperands r x y) :
    LookupTables.ValidUnsignedRemainder.mle r = ofBit (y == 0 || decide (x < y)) := by
  have hzero : ∏ i ∈ range 64, (1 - r (2 * i + 1)) = ofBit (decide (y = 0)) :=
    prod_clear fun i hi => by rw [h.right i hi, ofBit_not]
  rw [LookupTables.mle, hzero, lt_eq h]
  rw [beq_eq_decide]
  by_cases hy : y = 0
  · have hnot : ¬ x < y := by
      rw [hy, BitVec.lt_def]
      exact Nat.not_lt_zero _
    rw [decide_eq_true hy, decide_eq_false hnot]
    rfl
  · rw [decide_eq_false hy]
    cases decide (x < y) <;> rfl

theorem mle_validDiv0 (h : AtOperands r x y) : LookupTables.ValidDiv0.mle r =
    ((if x = 0 then boolEntry (y == -1) else 1 : U64).toNat : ℤ) := by
  have hzero : ∏ i ∈ range 64, (1 - r (2 * i)) = ofBit (decide (x = 0)) :=
    prod_clear fun i hi => by rw [h.left i hi, ofBit_not]
  have hones : ∏ i ∈ range 64, r (2 * i + 1) = ofBit (decide (~~~y = 0)) :=
    prod_clear fun i hi => by
      rw [h.right i hi, BitVec.getLsbD_not]
      simp [show 63 - i < 64 by omega]
  have hneg : ~~~y = 0 ↔ y = -1 := by
    constructor
    · intro hy
      rw [← BitVec.not_not (b := y), hy]
      decide
    · rintro rfl
      decide
  rw [LookupTables.mle, prod_mul_distrib, hzero, hones, decide_eq_decide.mpr hneg]
  by_cases hx : x = 0
  · rw [if_pos hx, boolEntry_toNat, beq_eq_decide, decide_eq_true hx]
    cases decide (y = -1) <;> rfl
  · rw [if_neg hx, decide_eq_false hx]
    cases decide (y = -1) <;> rfl

theorem mle_mulUNoOverflow (h : AtIndex r index) :
    LookupTables.MulUNoOverflow.mle r = ofBit (index >>> 64 == 0) := by
  have hzero : ∏ i ∈ range 64, (1 - r i) = ofBit (decide ((index >>> 64).setWidth 64 = (0 : U64))) :=
    prod_clear fun i hi => by
      rw [h i (by omega), ofBit_not, BitVec.getLsbD_setWidth, BitVec.getLsbD_ushiftRight,
        show 127 - i = 64 + (63 - i) by omega]
      simp [show 63 - i < 64 by omega]
  rw [LookupTables.mle, hzero, beq_eq_decide]
  congr 1
  have hlt := index.isLt
  refine decide_eq_decide.mpr ?_
  rw [← BitVec.toNat_inj, ← BitVec.toNat_inj, BitVec.toNat_setWidth, BitVec.toNat_ushiftRight,
    Nat.shiftRight_eq_div_pow, Nat.mod_eq_of_lt (by omega)]
  rfl

theorem mle_movsign (h : AtIndex r index) : LookupTables.Movsign.mle r =
    ((if index &&& (1 : U128) <<< 127 ≠ 0 then ((1 : U128) <<< 64 - 1).setWidth 64 else 0 : U64).toNat
      : ℤ) := by
  have hbit : index &&& (1 : U128) <<< 127 ≠ 0 ↔ index.getLsbD 127 = true := by
    have hone : ∀ j, ((1 : U128) <<< 127).getLsbD j = decide (127 = j) := by
      intro j
      change (BitVec.twoPow 128 127).getLsbD j = _
      rw [BitVec.getLsbD_twoPow]
      rfl
    generalize (1 : U128) <<< 127 = one at hone
    constructor
    · intro hne
      by_contra hclear
      refine hne (BitVec.eq_of_getLsbD_eq fun j hj => ?_)
      rw [BitVec.getLsbD_and, hone j]
      by_cases hj' : 127 = j
      · rw [← hj', Bool.eq_false_iff.mpr hclear, Bool.false_and]
        simp
      · rw [decide_eq_false hj', Bool.and_false]
        simp
    · intro hset hzero
      have hget := congrArg (fun v : U128 => v.getLsbD 127) hzero
      simp only [BitVec.getLsbD_and, hone 127, hset, decide_true, Bool.and_true] at hget
      simp at hget
  have hr : r 0 = ofBit (index.getLsbD 127) := h 0 (by decide)
  rw [LookupTables.mle, hr]
  by_cases hset : index.getLsbD 127 = true
  · rw [if_pos (hbit.mpr hset), hset]
    rfl
  · rw [if_neg fun hc => hset (hbit.mp hc), Bool.eq_false_iff.mpr hset]
    rfl

end Comparisons

/-! ## Powers and masks -/

section Powers

variable {r : Nat → ℤ} {x y : U64} {index : U128}

/-- The product over the last `m` bits is two to the number they are. -/
theorem prod_pow2 (h : AtIndex r index) {m : Nat} (hm : m ≤ 128) :
    ∏ i ∈ range m, (1 + (2 ^ 2 ^ i - 1) * r (127 - i)) = (2 : ℤ) ^ (index.toNat % 2 ^ m) := by
  induction m with
  | zero => simp [Nat.mod_one]
  | succ m ih =>
    have hbit : index.getLsbD m = decide (index.toNat / 2 ^ m % 2 = 1) := by
      rw [← BitVec.testBit_toNat, Nat.testBit_eq_decide_div_mod_eq]
    rw [prod_range_succ, ih (by omega), Nat.mod_pow_succ, pow_add, h (127 - m) (by omega),
      show 127 - (127 - m) = m by omega, hbit]
    congr 1
    rcases Nat.mod_two_eq_zero_or_one (index.toNat / 2 ^ m) with h0 | h1
    · simp [h0, ofBit]
    · simp [h1, ofBit]

theorem pow2_toNat {k : Nat} (hk : k < 64) : (((1 : U64) <<< k).toNat : ℤ) = 2 ^ k := by
  have hlt : 2 ^ k < 2 ^ 64 := Nat.pow_lt_pow_right (by decide) hk
  rw [one_shiftLeft, BitVec.toNat_ofNat, Nat.mod_eq_of_lt hlt]
  push_cast
  rfl

theorem mle_pow2 (h : AtIndex r index) :
    LookupTables.Pow2.mle r = (((1 : U64) <<< (index.toNat % 64)).toNat : ℤ) := by
  rw [pow2_toNat (Nat.mod_lt _ (by decide))]
  exact prod_pow2 h (m := 6) (by decide)

theorem mle_pow2W (h : AtIndex r index) :
    LookupTables.Pow2W.mle r = (((1 : U64) <<< (index.toNat % 32)).toNat : ℤ) := by
  have hlt : index.toNat % 32 < 32 := Nat.mod_lt _ (by decide)
  rw [pow2_toNat (by omega)]
  exact prod_pow2 h (m := 5) (by decide)

/-- The selector of a shift: the last six bits are its own. -/
theorem prod_selector (h : AtIndex r index) {s : Nat} (hs : s < 64) :
    (∏ i ∈ range 6, if s.testBit i then r (127 - i) else 1 - r (127 - i)) =
      ofBit (decide (s = index.toNat % 64)) := by
  have hfactor : ∀ i < 6, (if s.testBit i then r (127 - i) else 1 - r (127 - i)) =
      ofBit (s.testBit i == index.getLsbD i) := by
    intro i hi
    rw [h (127 - i) (by omega), show 127 - (127 - i) = i by omega]
    cases s.testBit i <;> cases index.getLsbD i <;> rfl
  rw [prod_ofBit 6 hfactor]
  congr 1
  refine decide_eq_decide.mpr ⟨fun hall => ?_, fun heq i hi => ?_⟩
  · refine Nat.eq_of_testBit_eq fun i => ?_
    rw [show 64 = 2 ^ 6 from rfl, Nat.testBit_mod_two_pow]
    by_cases hi : i < 6
    · rw [beq_iff_eq.mp (hall i hi), ← BitVec.testBit_toNat, decide_eq_true hi, Bool.true_and]
    · have hpow : 2 ^ 6 ≤ 2 ^ i := Nat.pow_le_pow_right (by decide) (by omega)
      rw [Nat.testBit_lt_two_pow (lt_of_lt_of_le hs hpow), decide_eq_false hi, Bool.false_and]
  · rw [heq, show 64 = 2 ^ 6 from rfl, Nat.testBit_mod_two_pow, decide_eq_true hi, Bool.true_and,
      BitVec.testBit_toNat, beq_self_eq_true]

theorem bitmask_toNat {k : Nat} (hk : k < 64) :
    ((((((1 : U128) <<< (64 - k) - 1).setWidth 64) <<< k : U64)).toNat : ℤ) =
      (2 ^ (64 - k) - 1) * 2 ^ k := by
  have hpos : 0 < 2 ^ (64 - k) := Nat.two_pow_pos _
  have hle : 2 ^ (64 - k) ≤ 2 ^ 64 := Nat.pow_le_pow_right (by decide) (Nat.sub_le _ _)
  have hone : ((1 : U128) <<< (64 - k)).toNat = 2 ^ (64 - k) := by
    rw [BitVec.toNat_shiftLeft, Nat.shiftLeft_eq, Nat.mod_eq_of_lt (by
      rw [show (1 : U128).toNat = 1 from rfl, one_mul]
      omega)]
    exact one_mul _
  have hsub : ((1 : U128) <<< (64 - k) - 1).toNat = 2 ^ (64 - k) - 1 := by
    rw [BitVec.toNat_sub, hone, show (1 : U128).toNat = 1 from rfl]
    omega
  have hmul : (2 ^ (64 - k) - 1) * 2 ^ k < 2 ^ 64 := by
    have hsplit : 2 ^ 64 = 2 ^ (64 - k) * 2 ^ k := by
      rw [← pow_add, Nat.sub_add_cancel hk.le]
    rw [hsplit]
    exact Nat.mul_lt_mul_of_pos_right (by omega) (Nat.two_pow_pos k)
  rw [BitVec.toNat_shiftLeft, BitVec.toNat_setWidth, hsub, Nat.shiftLeft_eq,
    Nat.mod_eq_of_lt (show 2 ^ (64 - k) - 1 < 2 ^ 64 by omega), Nat.mod_eq_of_lt hmul]
  push_cast [Nat.cast_sub (show 1 ≤ 2 ^ (64 - k) by omega)]
  rfl

theorem mle_shiftRightBitmask (h : AtIndex r index) : LookupTables.ShiftRightBitmask.mle r =
    ((((((1 : U128) <<< (64 - index.toNat % 64) - 1).setWidth 64) <<< (index.toNat % 64) : U64)).toNat
      : ℤ) := by
  have hlt : index.toNat % 64 < 64 := Nat.mod_lt _ (by decide)
  rw [bitmask_toNat hlt]
  have hterm : ∀ s ∈ range 64, ((2 : ℤ) ^ (64 - s) - 1) * 2 ^ s *
      (∏ i ∈ range 6, if s.testBit i then r (127 - i) else 1 - r (127 - i)) =
        if s = index.toNat % 64 then (2 ^ (64 - s) - 1) * 2 ^ s else 0 := by
    intro s hs
    rw [prod_selector h (mem_range.mp hs)]
    by_cases heq : s = index.toNat % 64
    · rw [if_pos heq, decide_eq_true heq]
      exact mul_one _
    · rw [if_neg heq, decide_eq_false heq]
      exact mul_zero _
  rw [LookupTables.mle, sum_congr rfl hterm, sum_ite_eq', if_pos (mem_range.mpr hlt)]

theorem mle_alignment (h : AtIndex r index) :
    LookupTables.HalfwordAlignment.mle r = ofBit (index.toNat % 2 == 0) ∧
      LookupTables.WordAlignment.mle r = ofBit (index.toNat % 4 == 0) := by
  have h0 : r 127 = ofBit (index.getLsbD 0) := h 127 (by decide)
  have h1 : r 126 = ofBit (index.getLsbD 1) := h 126 (by decide)
  have hbit0 : index.getLsbD 0 = decide (index.toNat % 2 = 1) := by
    rw [← BitVec.testBit_toNat, Nat.testBit_eq_decide_div_mod_eq, pow_zero, Nat.div_one]
  have hbit1 : index.getLsbD 1 = decide (index.toNat / 2 % 2 = 1) := by
    rw [← BitVec.testBit_toNat, Nat.testBit_eq_decide_div_mod_eq, pow_one]
  simp only [LookupTables.mle, h0, h1, hbit0, hbit1, ofBit, decide_eq_true_eq, beq_iff_eq]
  constructor <;> split_ifs <;> first | rfl | omega

end Powers

/-! ## Rotations of the exclusive or -/

section Rotations

variable {r : Nat → ℤ} {x y : U64}

/-- Bits moved to the place that a rotation moves them to. -/
theorem sum_rotate {w : Nat} (z : BitVec w) (rotation : Nat) {f : Nat → ℤ}
    (h : ∀ i < w, f i = ofBit (z.getLsbD (w - 1 - i))) :
    ∑ i ∈ range w, 2 ^ (w - 1 - (i + rotation) % w) * f i = ((z.rotateRight rotation).toNat : ℤ) := by
  rcases Nat.eq_zero_or_pos w with rfl | hw
  · rw [BitVec.eq_nil (z.rotateRight rotation)]
    rfl
  have hs : rotation % w < w := Nat.mod_lt _ hw
  have hmod : ∀ i < w, (i + rotation) % w =
      if i + rotation % w < w then i + rotation % w else i + rotation % w - w := by
    intro i hi
    rw [Nat.add_mod, Nat.mod_eq_of_lt hi]
    split_ifs with hlt
    · exact Nat.mod_eq_of_lt hlt
    · rw [Nat.mod_eq_sub_mod (by omega), Nat.mod_eq_of_lt (by omega)]
  rw [← sum_bits (z := z.rotateRight rotation)
    (f := fun k => 2 ^ (w - 1 - k) * ofBit ((z.rotateRight rotation).getLsbD (w - 1 - k)))
    fun k _ => rfl]
  refine sum_nbij' (fun i => (i + rotation) % w)
    (fun k => if rotation % w ≤ k then k - rotation % w else k + w - rotation % w)
    (fun i _ => mem_range.mpr (Nat.mod_lt _ hw)) ?_ ?_ ?_ ?_
  · intro k hk
    have hk' := mem_range.mp hk
    rw [mem_range]
    split_ifs <;> omega
  · intro i hi
    have hi' := mem_range.mp hi
    simp only [hmod i hi']
    split_ifs <;> omega
  · intro k hk
    have hk' := mem_range.mp hk
    have hlt : (if rotation % w ≤ k then k - rotation % w else k + w - rotation % w) < w := by
      split_ifs <;> omega
    simp only [hmod _ hlt]
    split_ifs <;> omega
  · intro i hi
    have hi' := mem_range.mp hi
    rw [h i hi', BitVec.getLsbD_rotateRight]
    congr 2
    rw [hmod i hi']
    split_ifs with hlt
    · rw [decide_eq_true (show w - 1 - (i + rotation % w) < w - rotation % w by omega), cond_true]
      congr 1
      omega
    · rw [decide_eq_false (show ¬ w - 1 - (i + rotation % w - w) < w - rotation % w by omega),
        cond_false, decide_eq_true (show w - 1 - (i + rotation % w - w) < w by omega), Bool.true_and]
      congr 1
      omega

theorem mle_xorRot (h : AtOperands r x y) (rotation : Nat) :
    (LookupTables.VirtualXORROT rotation).mle r = (((x ^^^ y).rotateRight rotation).toNat : ℤ) :=
  sum_rotate (x ^^^ y) rotation fun _ hi => xorBit_eq h hi

theorem mle_xorRotW (h : AtOperands r x y) (rotation : Nat) :
    (LookupTables.VirtualXORROTW rotation).mle r =
      ((((x.setWidth 32 ^^^ y.setWidth 32).rotateRight rotation).setWidth 64).toNat : ℤ) := by
  have hlt := ((x.setWidth 32 ^^^ y.setWidth 32).rotateRight rotation).isLt
  rw [BitVec.toNat_setWidth, Nat.mod_eq_of_lt (by omega)]
  refine sum_rotate (x.setWidth 32 ^^^ y.setWidth 32) rotation fun i hi => ?_
  rw [xorBit_eq h (by omega), show 63 - (32 + i) = 32 - 1 - i by omega, BitVec.getLsbD_xor,
    BitVec.getLsbD_xor, BitVec.getLsbD_setWidth, BitVec.getLsbD_setWidth,
    decide_eq_true (show 32 - 1 - i < 32 by omega), Bool.true_and, Bool.true_and]

end Rotations

/-! ## Divisors -/

section Divisors

variable {r : Nat → ℤ} {x y : U64}

/-- The first bit set and no other: the least signed number. -/
theorem prod_intMin {w : Nat} {z : BitVec (w + 1)} {f : Nat → ℤ}
    (h : ∀ i < w + 1, f i = ofBit (z.getLsbD (w - i))) :
    f 0 * ∏ i ∈ range w, (1 - f (i + 1)) = ofBit (decide (z = BitVec.intMin (w + 1))) := by
  have hbits : ∀ j, (BitVec.intMin (w + 1)).getLsbD j = decide (w = j) := by
    intro j
    change (BitVec.twoPow (w + 1) w).getLsbD j = _
    rw [BitVec.getLsbD_twoPow, decide_eq_true (Nat.lt_succ_self w), Bool.true_and]
  have hall := prod_clear_of (z := z ^^^ BitVec.intMin (w + 1))
    (f := fun i => if i = 0 then f 0 else 1 - f i) (by
      intro i hi
      rw [BitVec.getLsbD_xor, hbits, show w + 1 - 1 - i = w - i by omega]
      rcases Nat.eq_zero_or_pos i with rfl | hpos
      · rw [if_pos rfl, h 0 hi, Nat.sub_zero, decide_eq_true rfl, Bool.xor_true, Bool.not_not]
      · rw [if_neg (by omega), h i hi, ofBit_not, decide_eq_false (by omega), Bool.xor_false])
  rw [prod_range_succ'] at hall
  simp only [Nat.succ_ne_zero, if_false, if_true] at hall
  rw [mul_comm, hall]
  congr 1
  exact decide_eq_decide.mpr BitVec.xor_eq_zero_iff

/-- Every bit set: minus one. -/
theorem prod_ones {w : Nat} {z : BitVec w} {f : Nat → ℤ}
    (h : ∀ i < w, f i = ofBit (z.getLsbD (w - 1 - i))) :
    ∏ i ∈ range w, f i = ofBit (decide (z = -1)) := by
  have hall := prod_clear_of (z := ~~~z) (f := f) (by
    intro i hi
    rw [h i hi, BitVec.getLsbD_not, decide_eq_true (show w - 1 - i < w by omega), Bool.true_and,
      Bool.not_not])
  rw [hall]
  congr 1
  refine decide_eq_decide.mpr ⟨fun hz => ?_, fun hz => ?_⟩
  · rw [← BitVec.not_not (b := z), hz]
    exact BitVec.not_zero.trans BitVec.neg_one_eq_allOnes.symm
  · rw [hz]
    exact (congrArg _ BitVec.neg_one_eq_allOnes).trans BitVec.not_allOnes

theorem mle_changeDivisor (h : AtOperands r x y) : LookupTables.VirtualChangeDivisor.mle r =
    ((if x = BitVec.intMin 64 ∧ y = -1 then 1 else y : U64).toNat : ℤ) := by
  have hx := prod_intMin (w := 63) (z := x) (f := fun i => r (2 * i)) h.left
  have hy := prod_ones (z := y) (f := fun i => r (2 * i + 1)) h.right
  have hsum : ∑ i ∈ range 64, 2 ^ (63 - i) * r (2 * i + 1) = (y.toNat : ℤ) :=
    sum_bits fun i hi => by rw [h.right i hi]
  rw [LookupTables.mle, hsum, hy]
  change _ + _ * _ * _ = _
  have hx' : r 0 * ∏ i ∈ range 63, (1 - r (2 * (i + 1))) = ofBit (decide (x = BitVec.intMin 64)) := hx
  rw [hx']
  by_cases hxmin : x = BitVec.intMin 64
  · by_cases hyneg : y = -1
    · rw [if_pos ⟨hxmin, hyneg⟩, decide_eq_true hxmin, decide_eq_true hyneg, hyneg]
      decide
    · rw [if_neg fun hc => hyneg hc.2, decide_eq_false hyneg]
      simp [ofBit]
  · rw [if_neg fun hc => hxmin hc.1, decide_eq_false hxmin]
    simp [ofBit]

theorem mle_changeDivisorW (h : AtOperands r x y) : LookupTables.VirtualChangeDivisorW.mle r =
    ((if x.setWidth 32 = BitVec.intMin 32 ∧ y.setWidth 32 = -1 then 1
      else (y.setWidth 32).signExtend 64 : U64).toNat : ℤ) := by
  have hlow : ∀ {z : U64} {i : Nat}, i < 32 → (z.setWidth 32).getLsbD (31 - i) = z.getLsbD (63 - (32 + i)) := by
    intro z i hi
    rw [BitVec.getLsbD_setWidth, decide_eq_true (show 31 - i < 32 by omega), Bool.true_and]
    congr 1
    omega
  have hx := prod_intMin (w := 31) (z := x.setWidth 32) (f := fun i => r (2 * (32 + i)))
    fun i hi => by rw [h.left (32 + i) (by omega), hlow hi]
  have hy := prod_ones (z := y.setWidth 32) (f := fun i => r (2 * (32 + i) + 1))
    fun i hi => by rw [h.right (32 + i) (by omega), hlow hi]
  have hsum : ∑ i ∈ range 32, 2 ^ (31 - i) * r (2 * (32 + i) + 1) = ((y.setWidth 32).toNat : ℤ) :=
    sum_bits fun i hi => by rw [h.right (32 + i) (by omega), hlow hi]
  have hx' : r 64 * ∏ i ∈ range 31, (1 - r (2 * (33 + i))) =
      ofBit (decide (x.setWidth 32 = BitVec.intMin 32)) := by
    rw [← hx]
    refine congrArg₂ _ rfl (prod_congr rfl fun i _ => ?_)
    rw [show 33 + i = 32 + (i + 1) by omega]
  have hsign : r 65 = ofBit (y.setWidth 32).msb := by
    rw [BitVec.msb_eq_getLsbD_last, hlow (i := 0) (by decide)]
    exact h.right 32 (by decide)
  rw [LookupTables.mle, hsum, hy, hx', hsign]
  have hextend : (((y.setWidth 32).signExtend 64).toNat : ℤ) =
      (y.setWidth 32).toNat + (2 ^ 64 - 2 ^ 32) * ofBit (y.setWidth 32).msb := by
    have hlt := (y.setWidth 32).isLt
    rw [BitVec.toNat_signExtend, BitVec.toNat_setWidth, Nat.mod_eq_of_lt (by omega)]
    cases (y.setWidth 32).msb <;> simp [ofBit]
  by_cases hxmin : x.setWidth 32 = BitVec.intMin 32
  · by_cases hyneg : y.setWidth 32 = -1
    · rw [if_pos ⟨hxmin, hyneg⟩, decide_eq_true hxmin, decide_eq_true hyneg, hyneg]
      decide
    · rw [if_neg fun hc => hyneg hc.2, decide_eq_false hyneg, hextend]
      simp [ofBit]
  · rw [if_neg fun hc => hxmin hc.1, decide_eq_false hxmin, hextend]
    simp [ofBit]

end Divisors

end LightningJolt
