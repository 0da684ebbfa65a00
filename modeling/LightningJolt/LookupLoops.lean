/-
The lookup tables that run a loop over the bits of a mask (the right shifts and the
rotations), and the MLE of every table on every boolean index.
-/
import LightningJolt.LookupExtension
import LightningJolt.OnChainSumcheck

namespace LightningJolt

open Finset LookupMle

/-! ## Words of integers -/

theorem toNat_ofInt_word {v : ℤ} (h0 : 0 ≤ v) (h : v < 2 ^ 64) :
    ((BitVec.ofInt 64 v).toNat : ℤ) = v := by
  rw [BitVec.toNat_ofInt, Int.toNat_of_nonneg (Int.emod_nonneg v (by decide))]
  exact Int.emod_eq_of_lt h0 h

theorem ofInt_natCast_word (n : Nat) : BitVec.ofInt 64 (n : ℤ) = BitVec.ofNat 64 n :=
  BitVec.ofInt_natCast 64 n

theorem ofBit_getLsbD (z : U64) (i : Nat) : ofBit (z.getLsbD i) = (bitAt z i : ℤ) := by
  rw [getLsbD_eq_bitAt]
  have hlt := bitAt_lt z i
  generalize bitAt z i = b at *
  interval_cases b <;> rfl

/-! ## Bounds -/

section Bounds

variable {r : Nat → ℤ} {x y : U64}

/-- The product of `1 + y_i` over the `n` pairs from `skip`. -/
def prodOnePlus (r : Nat → ℤ) (skip n : Nat) : ℤ := ∏ i ∈ range n, (1 + r (2 * (skip + i) + 1))

theorem bit_cases {b : Bool} {v : ℤ} (h : v = ofBit b) : v = 0 ∨ v = 1 := by
  rw [h]
  exact ofBit_cases b

theorem prodOnePlus_succ (r : Nat → ℤ) (skip n : Nat) :
    prodOnePlus r skip (n + 1) = prodOnePlus r skip n * (1 + r (2 * (skip + n) + 1)) :=
  prod_range_succ _ _

theorem prodOnePlus_bounds (h : AtOperands r x y) (skip : Nat) {n : Nat} (hn : skip + n ≤ 64) :
    1 ≤ prodOnePlus r skip n ∧ prodOnePlus r skip n ≤ 2 ^ n := by
  induction n with
  | zero => exact ⟨le_refl _, le_refl _⟩
  | succ n ih =>
    obtain ⟨hlow, hhigh⟩ := ih (by omega)
    rw [prodOnePlus_succ, pow_succ]
    rcases bit_cases (h.right (skip + n) (by omega)) with hy | hy <;> rw [hy] <;> constructor <;> omega

/-- One round of a shift keeps the sum below the product. -/
theorem shift_step {s p a b : ℤ} (ha : a = 0 ∨ a = 1) (hb : b = 0 ∨ b = 1) (h0 : 0 ≤ s)
    (h : s + 1 ≤ p) : 0 ≤ s * (1 + b) + a * b ∧ s * (1 + b) + a * b + 1 ≤ p * (1 + b) := by
  rcases ha with rfl | rfl <;> rcases hb with rfl | rfl <;> constructor <;> omega

theorem shiftMle_bounds (h : AtOperands r x y) {n : Nat} (hn : n ≤ 64) :
    0 ≤ shiftMle r n ∧ shiftMle r n + 1 ≤ prodOnePlus r 0 n := by
  induction n with
  | zero => exact ⟨le_refl _, le_refl _⟩
  | succ n ih =>
    obtain ⟨hlow, hhigh⟩ := ih (by omega)
    rw [prodOnePlus_succ, Nat.zero_add]
    exact shift_step (bit_cases (h.left n (by omega))) (bit_cases (h.right n (by omega))) hlow hhigh

/-- The bits that an arithmetic shift fills in. -/
def signMle (r : Nat → ℤ) (n : Nat) : ℤ :=
  ∑ i ∈ range n, if i = 0 then 0 else 2 ^ i * (1 - r (2 * i + 1))

theorem signMle_succ (r : Nat → ℤ) (n : Nat) :
    signMle r (n + 1) = signMle r n + if n = 0 then 0 else 2 ^ n * (1 - r (2 * n + 1)) :=
  sum_range_succ _ _

theorem signMle_bounds (h : AtOperands r x y) {n : Nat} (hn : n ≤ 64) :
    0 ≤ signMle r n ∧ signMle r n + prodOnePlus r 0 n ≤ 2 ^ n := by
  induction n with
  | zero => exact ⟨le_refl _, le_refl _⟩
  | succ n ih =>
    obtain ⟨hlow, hhigh⟩ := ih (by omega)
    have hprod := (prodOnePlus_bounds h 0 (show 0 + n ≤ 64 by omega)).2
    have hpos : (0 : ℤ) < 2 ^ n := by positivity
    rw [signMle_succ, prodOnePlus_succ, Nat.zero_add, pow_succ]
    rcases bit_cases (h.right n (by omega)) with hy | hy <;> rw [hy] <;> split_ifs <;>
      constructor <;> omega

/-- One round of a rotation puts its wrapped bit in the room above. -/
theorem wrap_step {s q a b t : ℤ} (ha : a = 0 ∨ a = 1) (hb : b = 0 ∨ b = 1) (hq : 0 ≤ q) (h0 : 0 ≤ s)
    (h : s + q * 2 ≤ t) : 0 ≤ s + a * (1 - b) * q ∧ s + a * (1 - b) * q + q * (1 + b) ≤ t := by
  rcases ha with rfl | rfl <;> rcases hb with rfl | rfl <;> constructor <;> omega

/-- The part of a rotation that wraps around fits above the part that does not. -/
theorem rotateMle_bounds (h : AtOperands r x y) {skip n : Nat} (hn : skip + n ≤ 64) :
    (rotateMle r skip n).2.2 = prodOnePlus r skip n ∧
      (0 ≤ (rotateMle r skip n).1 ∧ (rotateMle r skip n).1 + 1 ≤ prodOnePlus r skip n) ∧
      0 ≤ (rotateMle r skip n).2.1 ∧
        (rotateMle r skip n).2.1 + prodOnePlus r skip n * 2 ^ (64 - skip - n) ≤ 2 ^ (64 - skip) := by
  induction n with
  | zero =>
    refine ⟨rfl, ⟨le_refl _, le_refl _⟩, le_refl _, ?_⟩
    simp [rotateMle, prodOnePlus]
  | succ n ih =>
    obtain ⟨hprod, ⟨hfirst0, hfirst⟩, hsecond0, hsecond⟩ := ih (by omega)
    have hx := bit_cases (h.left (skip + n) (by omega))
    have hy := bit_cases (h.right (skip + n) (by omega))
    have hp := (prodOnePlus_bounds h skip (show skip + n ≤ 64 by omega)).1
    have hexp : (2 : ℤ) ^ (64 - skip - n) = 2 ^ (63 - (skip + n)) * 2 := by
      rw [← pow_succ]
      congr 1
      omega
    have hexp' : 64 - skip - (n + 1) = 63 - (skip + n) := by omega
    have hterm : 0 ≤ prodOnePlus r skip n * 2 ^ (63 - (skip + n)) := by positivity
    simp only [rotateMle, hprod, prodOnePlus_succ, hexp']
    rw [hexp, ← mul_assoc] at hsecond
    obtain ⟨hnonneg, hstep⟩ := wrap_step hx hy hterm hsecond0 hsecond
    exact ⟨trivial, shift_step hx hy hfirst0 hfirst, by linarith, by linarith⟩

end Bounds

/-! ## The loops -/

section Loops

variable {r : Nat → ℤ} {x y : U64}

/-- The first bit of the last `n + 1` bits of a word, and the last `n`. -/
theorem popMsb_mod (z : U64) (n : Nat) : LookupBits.popMsb ⟨z.toNat % 2 ^ (n + 1), n + 1⟩ =
    (bitAt z n, ⟨z.toNat % 2 ^ n, n⟩) := by
  have hbit : z.toNat % 2 ^ (n + 1) / 2 ^ n % 2 = z.toNat / 2 ^ n % 2 := by
    rw [pow_succ, Nat.mod_mul_right_div_self, Nat.mod_mod]
  have hrest : z.toNat % 2 ^ (n + 1) % 2 ^ n = z.toNat % 2 ^ n :=
    Nat.mod_mod_of_dvd _ ⟨2, pow_succ 2 n⟩
  simp only [LookupBits.popMsb, Nat.add_sub_cancel, hbit, hrest, bitAt]

theorem AtOperands.left_bitAt (h : AtOperands r x y) {i : Nat} (hi : i < 64) :
    r (2 * i) = (bitAt x (63 - i) : ℤ) := (h.left i hi).trans (ofBit_getLsbD x (63 - i))

theorem AtOperands.right_bitAt (h : AtOperands r x y) {i : Nat} (hi : i < 64) :
    r (2 * i + 1) = (bitAt y (63 - i) : ℤ) := (h.right i hi).trans (ofBit_getLsbD y (63 - i))

/-- The code's round of a sum, on the words of the formula's. -/
theorem ofInt_shift (s : ℤ) (a b : Nat) : BitVec.ofInt 64 (s * (1 + (b : ℤ)) + (a : ℤ) * b) =
    BitVec.ofInt 64 s * BitVec.ofNat 64 (1 + b) + BitVec.ofNat 64 (a * b) := by
  rw [BitVec.ofInt_add, BitVec.ofInt_mul, ← ofInt_natCast_word, ← ofInt_natCast_word]
  push_cast
  rfl

/-- With `m` rounds done and `n` to go, the shift's loop ends in the formula's sum. -/
theorem shiftLoop_eq (h : AtOperands r x y) {n m : Nat} (hmn : m + n = 64) :
    shiftLoop n ⟨x.toNat % 2 ^ n, n⟩ ⟨y.toNat % 2 ^ n, n⟩ (BitVec.ofInt 64 (shiftMle r m)) =
      BitVec.ofInt 64 (shiftMle r 64) := by
  induction n generalizing m with
  | zero =>
    obtain rfl : m = 64 := hmn
    rfl
  | succ n ih =>
    rw [shiftLoop, popMsb_mod, popMsb_mod]
    dsimp only
    rw [← ofInt_shift, ← ih (m := m + 1) (by omega), shiftMle, h.left_bitAt (by omega),
      h.right_bitAt (by omega), show 63 - m = n by omega]

theorem signLoop_eq (h : AtOperands r x y) {n m : Nat} (hmn : m + n = 64) :
    signLoop n m ⟨y.toNat % 2 ^ n, n⟩ (BitVec.ofInt 64 (signMle r m)) =
      BitVec.ofInt 64 (signMle r 64) := by
  induction n generalizing m with
  | zero =>
    obtain rfl : m = 64 := hmn
    rfl
  | succ n ih =>
    have hle : bitAt y n ≤ 1 := Nat.le_of_lt_succ (bitAt_lt y n)
    have hterm : (if m = 0 then BitVec.ofInt 64 (signMle r m)
        else BitVec.ofInt 64 (signMle r m) + (1 : U64) <<< m * BitVec.ofNat 64 (1 - bitAt y n)) =
        BitVec.ofInt 64 (signMle r (m + 1)) := by
      rw [signMle_succ, h.right_bitAt (by omega), show 63 - m = n by omega]
      split_ifs
      · rw [add_zero]
      · rw [BitVec.ofInt_add, BitVec.ofInt_mul, one_shiftLeft, ← ofInt_natCast_word,
          ← ofInt_natCast_word, Nat.cast_sub hle]
        push_cast
        rfl
    rw [signLoop, popMsb_mod]
    dsimp only
    rw [hterm, ih (by omega)]

/-- The same of the rotations, with the product a number. -/
theorem rotateLoop_eq (h : AtOperands r x y) (skip : Nat) {n m p : Nat} (hmn : skip + m + n = 64)
    (hp : (p : ℤ) = (rotateMle r skip m).2.2) :
    rotateLoop n x y (BitVec.ofInt 64 (rotateMle r skip m).1)
        (BitVec.ofInt 64 (rotateMle r skip m).2.1) p =
      BitVec.ofInt 64 ((rotateMle r skip (m + n)).1 + (rotateMle r skip (m + n)).2.1) := by
  induction n generalizing m p with
  | zero => rw [rotateLoop, BitVec.ofInt_add, Nat.add_zero]
  | succ n ih =>
    have hle : bitAt y n ≤ 1 := Nat.le_of_lt_succ (bitAt_lt y n)
    have hx := h.left_bitAt (i := skip + m) (by omega)
    have hy := h.right_bitAt (i := skip + m) (by omega)
    rw [show 63 - (skip + m) = n by omega] at hx hy
    have hfirst : BitVec.ofInt 64 (rotateMle r skip (m + 1)).1 =
        BitVec.ofInt 64 (rotateMle r skip m).1 * BitVec.ofNat 64 (1 + bitAt y n) +
          BitVec.ofNat 64 (bitAt x n * bitAt y n) := by
      rw [← ofInt_shift, ← hx, ← hy]
      rfl
    have hsecond : BitVec.ofInt 64 (rotateMle r skip (m + 1)).2.1 =
        BitVec.ofInt 64 (rotateMle r skip m).2.1 +
          BitVec.ofNat 64 (bitAt x n) * BitVec.ofNat 64 ((1 - bitAt y n) * p) * (1 : U64) <<< n := by
      rw [one_shiftLeft, ← ofInt_natCast_word, ← ofInt_natCast_word, ← ofInt_natCast_word,
        ← BitVec.ofInt_mul, ← BitVec.ofInt_mul, ← BitVec.ofInt_add]
      push_cast [Nat.cast_sub hle]
      rw [hp, ← hx, ← hy, ← mul_assoc]
      simp only [rotateMle, show 63 - (skip + m) = n by omega]
    have hprod : ((p * (1 + bitAt y n) : Nat) : ℤ) = (rotateMle r skip (m + 1)).2.2 := by
      push_cast
      rw [hp, ← hy]
      rfl
    rw [rotateLoop, ← hfirst, ← hsecond, ih (by omega) hprod, show m + 1 + n = m + (n + 1) by omega]

/-- The logical shift as a word of the formula. -/
theorem srlEntry_eq (h : AtOperands r x y) : srlEntry x y = BitVec.ofInt 64 (shiftMle r 64) := by
  have hloop := shiftLoop_eq h (m := 0) (n := 64) rfl
  rw [Nat.mod_eq_of_lt x.isLt, Nat.mod_eq_of_lt y.isLt] at hloop
  exact hloop

/-- The other accumulator of an arithmetic shift. -/
theorem signEntry_eq (h : AtOperands r x y) :
    signLoop 64 0 (.new y) 0 = BitVec.ofInt 64 (signMle r 64) := by
  have hloop := signLoop_eq h (m := 0) (n := 64) rfl
  rw [Nat.mod_eq_of_lt y.isLt] at hloop
  exact hloop

theorem mle_srl (h : AtOperands r x y) :
    LookupTables.VirtualSRL.mle r = ((srlEntry x y).toNat : ℤ) := by
  obtain ⟨hlow, hhigh⟩ := shiftMle_bounds h (Nat.le_refl 64)
  have hprod := (prodOnePlus_bounds h 0 (n := 64) (Nat.le_refl 64)).2
  rw [srlEntry_eq h, toNat_ofInt_word hlow (by omega)]
  rfl

theorem mle_sra (h : AtOperands r x y) :
    LookupTables.VirtualSRA.mle r = ((sraEntry x y).toNat : ℤ) := by
  obtain ⟨hlow, hhigh⟩ := shiftMle_bounds h (Nat.le_refl 64)
  obtain ⟨hsignLow, hsignHigh⟩ := signMle_bounds h (Nat.le_refl 64)
  have hmsb : r 0 = ofBit x.msb := (sign_eq h).1
  have hentry : sraEntry x y = BitVec.ofInt 64 (shiftMle r 64 + r 0 * signMle r 64) := by
    rw [sraEntry, srlEntry_eq h, signEntry_eq h, hmsb, BitVec.ofInt_add, BitVec.ofInt_mul]
    cases x.msb <;> rfl
  have hbounds : 0 ≤ shiftMle r 64 + r 0 * signMle r 64 ∧
      shiftMle r 64 + r 0 * signMle r 64 < 2 ^ 64 := by
    rcases bit_cases hmsb with h0 | h0 <;> rw [h0] <;> constructor <;> omega
  rw [hentry, toNat_ofInt_word hbounds.1 hbounds.2]
  rfl

/-- A rotation of the last `n` bits. -/
theorem rotate_eq (h : AtOperands r x y) (skip : Nat) {n : Nat} (hn : skip + n = 64) :
    (rotateMle r skip n).1 + (rotateMle r skip n).2.1 = ((rotateLoop n x y 0 0 1).toNat : ℤ) := by
  obtain ⟨-, ⟨hfirst0, hfirst⟩, hsecond0, hsecond⟩ := rotateMle_bounds h (show skip + n ≤ 64 by omega)
  have hloop := rotateLoop_eq h skip (n := n) (m := 0) (p := 1) (by omega) rfl
  rw [Nat.zero_add] at hloop
  change rotateLoop n x y 0 0 1 = _ at hloop
  have hpow : (2 : ℤ) ^ (64 - skip) ≤ 2 ^ 64 := pow_le_pow_right₀ (by decide) (Nat.sub_le 64 skip)
  rw [show 64 - skip - n = 0 by omega, pow_zero, mul_one] at hsecond
  rw [hloop, toNat_ofInt_word (by omega) (by omega)]

end Loops

/-! ## Byte reversal -/

section Bytes

variable {r : Nat → ℤ} {index : U128}

theorem getLsbD_swapBytes (v : U32) {k : Nat} (hk : k < 32) :
    (swapBytes v).getLsbD k = v.getLsbD (8 * (3 - k / 8) + k % 8) := by
  simp only [swapBytes, BitVec.getLsbD_or, BitVec.getLsbD_and, BitVec.getLsbD_shiftLeft,
    BitVec.getLsbD_ushiftRight]
  interval_cases k <;> simp

/-- The bit `i` of the byte `j` of the reversal is bit `i` of the byte it comes from. -/
theorem getLsbD_rev8w (v : U64) {j i : Nat} (hj : j < 8) (hi : i < 8) :
    (rev8w v).getLsbD (8 * j + i) = v.getLsbD (8 * rev8wByte j + i) := by
  have hdisjoint : (swapBytes (v.setWidth 32)).setWidth 64 &&&
      (swapBytes ((v >>> 32).setWidth 32)).setWidth 64 <<< 32 = 0#64 := by
    refine BitVec.eq_of_getLsbD_eq fun k hk => ?_
    by_cases hlt : k < 32
    · simp [hlt]
    · rw [BitVec.getLsbD_and, BitVec.getLsbD_setWidth, BitVec.getLsbD_of_ge _ k (by omega)]
      simp
  rw [rev8w, BitVec.add_eq_or_of_and_eq_zero _ _ hdisjoint, BitVec.getLsbD_or,
    BitVec.getLsbD_shiftLeft, BitVec.getLsbD_setWidth, BitVec.getLsbD_setWidth,
    decide_eq_true (show 8 * j + i < 64 by omega)]
  rcases Nat.lt_or_ge j 4 with hlow | hhigh
  · rw [getLsbD_swapBytes _ (by omega), BitVec.getLsbD_setWidth, rev8wByte, if_pos hlow]
    have hindex : 8 * (3 - (8 * j + i) / 8) + (8 * j + i) % 8 = 8 * (3 - j) + i := by omega
    rw [hindex]
    simp [show 8 * j + i < 32 by omega, show 8 * (3 - j) + i < 32 by omega]
  · rw [BitVec.getLsbD_of_ge (swapBytes (v.setWidth 32)) _ (by omega),
      getLsbD_swapBytes _ (show 8 * j + i - 32 < 32 by omega), BitVec.getLsbD_setWidth,
      BitVec.getLsbD_ushiftRight, rev8wByte, if_neg (by omega)]
    have hindex : 32 + (8 * (3 - (8 * j + i - 32) / 8) + (8 * j + i - 32) % 8) = 8 * (11 - j) + i := by
      omega
    rw [hindex]
    simp [show ¬ 8 * j + i < 32 by omega, show 8 * j + i - 32 < 64 by omega,
      show 8 * (3 - (8 * j + i - 32) / 8) + (8 * j + i - 32) % 8 < 32 by omega]

/-- A word from the bits of its bytes. -/
theorem sum_bytes {z : U64} {f : Nat → Nat → ℤ}
    (h : ∀ j < 8, ∀ i < 8, f j i = ofBit (z.getLsbD (8 * j + i))) :
    ∑ j ∈ range 8, (∑ i ∈ range 8, f j i * 2 ^ i) * 2 ^ (8 * j) = (z.toNat : ℤ) := by
  have hbyte : ∀ j < 8, ∑ i ∈ range 8, f j i * 2 ^ i = ((z.toNat / 2 ^ (8 * j) % 2 ^ 8 : Nat) : ℤ) := by
    intro j hj
    rw [← sum_testBit 8 (z.toNat / 2 ^ (8 * j)),
      Finset.sum_range_reflect (fun i => (2 : ℤ) ^ i * ofBit ((z.toNat / 2 ^ (8 * j)).testBit i)) 8]
    refine sum_congr rfl fun i hi => ?_
    rw [h j hj i (mem_range.mp hi), Nat.testBit_div_two_pow, BitVec.testBit_toNat, mul_comm,
      Nat.add_comm i (8 * j)]
  have hlt := z.isLt
  rw [sum_congr rfl fun j hj => by rw [hbyte j (mem_range.mp hj)]]
  generalize z.toNat = n at *
  simp only [sum_range_succ, sum_range_zero]
  norm_num only
  omega

theorem mle_rev8w (h : AtIndex r index) :
    LookupTables.VirtualRev8W.mle r = ((rev8w (index.setWidth 64)).toNat : ℤ) := by
  refine sum_bytes fun j hj i hi => ?_
  have hplace : rev8wByte j < 8 := by
    rw [rev8wByte]
    split_ifs <;> omega
  rw [h (127 - (8 * rev8wByte j + i)) (by omega), getLsbD_rev8w _ hj hi, BitVec.getLsbD_setWidth,
    decide_eq_true (show 8 * rev8wByte j + i < 64 by omega), Bool.true_and]
  congr 2
  omega

end Bytes

/-! ## Every table -/

/-- On an index the formula over the integers is the entry. -/
theorem LookupTables.mle_materializeEntry (table : LookupTables) {r : Nat → ℤ} (index : U128)
    (h : AtIndex r index) : table.mle r = ((table.materializeEntry index).toNat : ℤ) := by
  have hxy := h.operands
  simp only [materializeEntry]
  generalize (uninterleaveBits index).1 = x at *
  generalize (uninterleaveBits index).2 = y at *
  cases table with
  | RangeCheck => exact mle_rangeCheck h
  | RangeCheckAligned => exact mle_rangeCheckAligned h
  | And => exact mle_and hxy
  | Andn => exact mle_andn hxy
  | Or => exact mle_or hxy
  | Xor => exact mle_xor hxy
  | Equal =>
    rw [boolEntry_toNat]
    exact prod_eqBit hxy
  | NotEqual =>
    rw [boolEntry_toNat, bne, ← ofBit_not, ← prod_eqBit hxy]
    rfl
  | SignedLessThan =>
    rw [boolEntry_toNat]
    exact signed_lt_eq hxy
  | SignedGreaterThanEqual =>
    have hsle : y.sle x = !x.slt y := by
      rw [BitVec.sle_eq_not_slt]
    rw [boolEntry_toNat, hsle, ← ofBit_not, ← signed_lt_eq hxy]
    rfl
  | UnsignedLessThan =>
    rw [boolEntry_toNat]
    exact lt_eq hxy
  | UnsignedGreaterThanEqual =>
    have hle : decide (y ≤ x) = !decide (x < y) := by
      rw [← decide_not]
      exact decide_eq_decide.mpr BitVec.not_lt.symm
    rw [boolEntry_toNat, hle, ← ofBit_not, ← lt_eq hxy]
    rfl
  | LessThanEqual =>
    rw [boolEntry_toNat, mle, lt_eq hxy, eq_eq hxy]
    rcases Nat.lt_trichotomy x.toNat y.toNat with hlt | heq | hgt
    · simp [ofBit, BitVec.lt_def, BitVec.le_def, hlt, Nat.le_of_lt hlt, BitVec.toNat_eq, Nat.ne_of_lt hlt]
    · simp [ofBit, BitVec.toNat_inj.mp heq]
    · simp [ofBit, BitVec.lt_def, BitVec.le_def, Nat.not_lt.mpr (Nat.le_of_lt hgt),
        Nat.not_le.mpr hgt, BitVec.toNat_eq, Nat.ne_of_gt hgt]
  | Movsign => exact mle_movsign h
  | UpperWord => exact mle_upperWord h
  | ValidUnsignedRemainder =>
    rw [boolEntry_toNat]
    exact mle_validUnsignedRemainder hxy
  | ValidDiv0 => exact mle_validDiv0 hxy
  | HalfwordAlignment =>
    rw [boolEntry_toNat]
    exact (mle_alignment h).1
  | WordAlignment =>
    rw [boolEntry_toNat]
    exact (mle_alignment h).2
  | LowerHalfWord => exact mle_lowerHalfWord h
  | SignExtendHalfWord => exact mle_signExtendHalfWord h
  | Pow2 => exact mle_pow2 h
  | Pow2W => exact mle_pow2W h
  | ShiftRightBitmask => exact mle_shiftRightBitmask h
  | VirtualRev8W => exact mle_rev8w h
  | VirtualSRL => exact mle_srl hxy
  | VirtualSRA => exact mle_sra hxy
  | VirtualROTR => exact rotate_eq hxy 0 rfl
  | VirtualROTRW => exact rotate_eq hxy 32 rfl
  | VirtualChangeDivisor => exact mle_changeDivisor hxy
  | VirtualChangeDivisorW => exact mle_changeDivisorW hxy
  | MulUNoOverflow =>
    rw [boolEntry_toNat]
    exact mle_mulUNoOverflow h
  | VirtualXORROT rotation => exact mle_xorRot hxy rotation
  | VirtualXORROTW rotation => exact mle_xorRotW hxy rotation

section Extension

variable {F C : Type} [CommRing F] [Challenge C F]

/-- A bit as a field element. -/
def fieldBit (b : Bool) : F := if b then 1 else 0

/-- The boolean point of an index, the most significant bit first. -/
def indexPoint (index : U128) : List F := (List.range 128).map fun k => fieldBit (index.getLsbD (127 - k))

theorem fieldBit_ofBit (b : Bool) : (fieldBit b : F) = Int.castRingHom F (ofBit b) := by
  cases b
  · exact (map_zero (Int.castRingHom F)).symm
  · exact (map_one (Int.castRingHom F)).symm

theorem getElem?_indexPoint (index : U128) {k : Nat} (hk : k < 128) :
    (indexPoint index : List F)[k]? = .some (fieldBit (index.getLsbD (127 - k))) := by
  rw [indexPoint, List.getElem?_map, List.getElem?_range hk]
  rfl

/-- **`evaluate_mle` is the extension of the table.** It is affine in every coordinate, and at the
bits of an index, the most significant first, it is the table's entry; the bits of two operands
alternate in the index they interleave to, the left one's first. -/
theorem LookupTables.evaluateMle_extension (table : LookupTables) :
    (∀ (r : List C) (k : Nat), r.length = 128 → k < 128 → ∃ a b : F, ∀ c : C,
      table.evaluateMle (r.set k c) = a + b * Challenge.into c) ∧
    (∀ (r : List C) (index : U128), r.map (Challenge.into : C → F) = indexPoint index →
      table.evaluateMle r = ((table.materializeEntry index).toNat : F)) ∧
    ∀ x y : U64, uninterleaveBits (interleaveBits x y) = (x, y) ∧ ∀ i < 64,
      (indexPoint (interleaveBits x y) : List F)[2 * i]? = .some (fieldBit (x.getLsbD (63 - i))) ∧
      (indexPoint (interleaveBits x y) : List F)[2 * i + 1]? =
        .some (fieldBit (y.getLsbD (63 - i))) := by
  refine ⟨fun r k hr hk => ?_, fun r index hr => ?_, fun x y => ⟨uninterleave_interleave x y, ?_⟩⟩
  · have hset : ∀ c : C, (fun i => ((r.set k c).map (Challenge.into : C → F)).getD i 0) =
        Function.update (fun i => (r.map (Challenge.into : C → F)).getD i 0) k (Challenge.into c) := by
      intro c
      funext i
      rw [List.map_set]
      by_cases hik : i = k
      · subst hik
        simp [hr, hk]
      · rw [Function.update_of_ne hik]
        simp [Ne.symm hik]
    obtain ⟨a, b, hab⟩ := (table.mle_multilinear (F := F)).affine
      (fun i => (r.map (Challenge.into : C → F)).getD i 0) k
    refine ⟨a, b, fun c => ?_⟩
    rw [evaluateMle, hset, hab]
  · -- The same point over the integers: the bits, and 0 past the last of them.
    have hpoint : ∀ k, (r.map (Challenge.into : C → F)).getD k 0 =
        Int.castRingHom F (if k < 128 then ofBit (index.getLsbD (127 - k)) else 0) := by
      intro k
      rw [hr, List.getD_eq_getElem?_getD]
      split_ifs with hk
      · rw [getElem?_indexPoint index hk, Option.getD_some, fieldBit_ofBit]
      · rw [List.getElem?_eq_none (by simp [indexPoint]; omega), Option.getD_none, map_zero]
    rw [evaluateMle, funext hpoint, table.map_mle (Int.castRingHom F),
      table.mle_materializeEntry index fun k hk => if_pos hk]
    exact Int.cast_natCast _
  · intro i hi
    obtain ⟨hx, hy⟩ := getLsbD_interleaveBits x y (i := 63 - i) (by omega)
    rw [getElem?_indexPoint _ (by omega), getElem?_indexPoint _ (by omega),
      show 127 - 2 * i = 2 * (63 - i) + 1 by omega, show 127 - (2 * i + 1) = 2 * (63 - i) by omega]
    exact ⟨congrArg _ (congrArg _ ‹_›), congrArg _ (congrArg _ ‹_›)⟩

set_option maxRecDepth 4000 in
theorem evaluateMle_extension_rotr :
    (∃ a b : Fr, ∀ c : Fr,
      (LookupTables.VirtualROTR.evaluateMle ((List.replicate 128 (2 : Fr)).set 3 c) : Fr) =
        a + b * Challenge.into c) ∧
    (LookupTables.VirtualROTR.evaluateMle (indexPoint (interleaveBits 3 (-2)) : List Fr) : Fr) =
      2 ^ 63 + 1 := by
  have hentry : (LookupTables.VirtualROTR.materializeEntry (interleaveBits 3 (-2))).toNat = 2 ^ 63 + 1 := by
    decide
  obtain ⟨haffine, hindex, -⟩ := LookupTables.evaluateMle_extension (F := Fr) (C := Fr) .VirtualROTR
  refine ⟨haffine (List.replicate 128 2) 3 List.length_replicate (by decide), ?_⟩
  rw [hindex (indexPoint (interleaveBits 3 (-2))) _ (List.map_id _), hentry]
  norm_num

end Extension

end LightningJolt
