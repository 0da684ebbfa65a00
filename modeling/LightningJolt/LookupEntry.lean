/-
The lookup tables on the operands that reach them: interleaving undone, and
the entries of the shifts and rotations by a mask.
-/
import LightningJolt.LookupTable
import LightningJolt.Blocks
import LightningJolt.Values

namespace LightningJolt

/-! ## Interleaving -/

theorem blocks_setWidth (x : U64) : Blocks 64 x.getLsbD (x.setWidth 128) := by
  intro q r hr hw
  have hq : q = 0 := by omega
  subst hq
  rw [BitVec.getLsbD_setWidth]
  by_cases h : r < 64
  · simp [h, show r < 128 by omega]
  · simp [h, BitVec.getLsbD_of_ge x r (by omega)]

theorem spreadStep_blocks {m : Nat} {mask x : U128} {f : Nat → Bool}
    (hmask : ∀ j < 128, mask.getLsbD j = decide (j % (2 * m) < m)) (h : Blocks (2 * m) f x) :
    Blocks m f (spreadStep m mask x) :=
  h.spread (blockMask_of_mod hmask)

theorem spreadBits_blocks (x : U64) : Blocks 1 x.getLsbD (spreadBits x) := by
  unfold spreadBits
  refine spreadStep_blocks (by decide) ?_
  refine spreadStep_blocks (m := 2) (by decide) ?_
  refine spreadStep_blocks (m := 4) (by decide) ?_
  refine spreadStep_blocks (m := 8) (by decide) ?_
  refine spreadStep_blocks (m := 16) (by decide) ?_
  exact spreadStep_blocks (m := 32) (by decide) (blocks_setWidth x)

theorem getLsbD_spreadBits (x : U64) {i : Nat} (hi : i < 64) :
    (spreadBits x).getLsbD (2 * i) = x.getLsbD i ∧ (spreadBits x).getLsbD (2 * i + 1) = false := by
  have h := spreadBits_blocks x
  have heven := h i 0 (by omega) (by omega)
  have hodd := h i 1 (by omega) (by omega)
  simp only [one_mul, add_zero] at heven hodd
  exact ⟨by simpa using heven, by simpa using hodd⟩

theorem getLsbD_interleaveBits (x y : U64) {i : Nat} (hi : i < 64) :
    (interleaveBits x y).getLsbD (2 * i) = y.getLsbD i ∧
      (interleaveBits x y).getLsbD (2 * i + 1) = x.getLsbD i := by
  obtain ⟨hy, hy'⟩ := getLsbD_spreadBits y hi
  obtain ⟨hx, -⟩ := getLsbD_spreadBits x hi
  constructor
  · rw [interleaveBits, BitVec.getLsbD_or, BitVec.getLsbD_shiftLeft, hy]
    rcases Nat.eq_zero_or_pos i with rfl | hpos
    · simp
    · obtain ⟨-, hbelow⟩ := getLsbD_spreadBits x (show i - 1 < 64 by omega)
      rw [show 2 * i - 1 = 2 * (i - 1) + 1 by omega, hbelow]
      simp
  · rw [interleaveBits, BitVec.getLsbD_or, BitVec.getLsbD_shiftLeft, hy', Nat.add_sub_cancel, hx]
    simp [show 2 * i + 1 < 128 by omega]

theorem gatherStep_blocks {m : Nat} (mask : U128) {x : U128} {f : Nat → Bool}
    (hmask : ∀ j < 128, mask.getLsbD j = decide (j % (2 * (2 * m)) < 2 * m)) (hdvd : 4 * m ∣ 128)
    (h : Blocks m f x) : Blocks (2 * m) f (gatherStep m mask x) :=
  h.gather (blockMask_of_mod hmask) hdvd

theorem evenBits_blocks (v : U128) :
    Blocks 1 (fun i => v.getLsbD (2 * i)) (v &&& 0x55555555555555555555555555555555) := by
  intro q r hr hw
  have hmask : BlockMask 1 (0x55555555555555555555555555555555 : U128) :=
    blockMask_of_mod (by decide)
  rw [BitVec.getLsbD_and, hmask q r hr hw]
  rcases (show r = 0 ∨ r = 1 by omega) with rfl | rfl
  · simp
  · simp

theorem getLsbD_gatherBits (v : U128) {i : Nat} (hi : i < 64) :
    (gatherBits v).getLsbD i = v.getLsbD (2 * i) := by
  have h2 := gatherStep_blocks 0x33333333333333333333333333333333 (by decide)
    (by decide) (evenBits_blocks v)
  have h4 := gatherStep_blocks 0x0F0F0F0F0F0F0F0F0F0F0F0F0F0F0F0F (by decide)
    (by decide) h2
  have h8 := gatherStep_blocks 0x00FF00FF00FF00FF00FF00FF00FF00FF (by decide)
    (by decide) h4
  have h16 := gatherStep_blocks 0x0000FFFF0000FFFF0000FFFF0000FFFF (by decide)
    (by decide) h8
  have h32 := gatherStep_blocks 0x00000000FFFFFFFF00000000FFFFFFFF (by decide)
    (by decide) h16
  have h64 := gatherStep_blocks 0x0000000000000000FFFFFFFFFFFFFFFF (by decide)
    (by decide) h32
  have hbit := h64 0 i (by omega) (by omega)
  rw [gatherBits, BitVec.getLsbD_setWidth]
  simpa [hi] using hbit

theorem uninterleave_interleave (x y : U64) : uninterleaveBits (interleaveBits x y) = (x, y) := by
  rw [uninterleaveBits]
  congr 1
  · refine BitVec.eq_of_getLsbD_eq fun i hi => ?_
    rw [getLsbD_gatherBits _ hi, BitVec.getLsbD_ushiftRight, Nat.add_comm]
    exact (getLsbD_interleaveBits x y hi).2
  · refine BitVec.eq_of_getLsbD_eq fun i hi => ?_
    rw [getLsbD_gatherBits _ hi]
    exact (getLsbD_interleaveBits x y hi).1

/-! ## Shifts by a mask -/

/-- The last `n` bits of the mask with the bits from `s` up set. -/
def maskBits (n s : Nat) : Nat := 2 ^ n - 2 ^ min s n

theorem popMsb_mask (n s : Nat) :
    LookupBits.popMsb ⟨maskBits (n + 1) s, n + 1⟩ = (if s ≤ n then 1 else 0, ⟨maskBits n s, n⟩) := by
  have hpow : 2 ^ (n + 1) = 2 * 2 ^ n := by ring
  have hpos : 0 < 2 ^ n := by positivity
  simp only [LookupBits.popMsb, Nat.add_sub_cancel, maskBits]
  by_cases h : s ≤ n
  · have hle : 2 ^ s ≤ 2 ^ n := Nat.pow_le_pow_right (by decide) h
    have hspos : 0 < 2 ^ s := by positivity
    rw [min_eq_left h, min_eq_left (by omega), hpow, if_pos h]
    have hsplit : 2 * 2 ^ n - 2 ^ s = (2 ^ n - 2 ^ s) + 2 ^ n * 1 := by omega
    have hlt : 2 ^ n - 2 ^ s < 2 ^ n := by omega
    rw [hsplit, Nat.add_mul_div_left _ _ hpos, Nat.add_mul_mod_self_left, Nat.div_eq_of_lt hlt,
      Nat.mod_eq_of_lt hlt]
  · rw [min_eq_right (by omega), min_eq_right (by omega), if_neg h]
    simp

theorem ofNat_two_pow_succ (k : Nat) : BitVec.ofNat 64 (2 ^ (k + 1)) = BitVec.ofNat 64 (2 ^ k) * 2 := by
  rw [pow_succ, BitVec.ofNat_mul]
  rfl

/-- A number below `2 ^ (n + 1)` without its `s` low bits, by its bit `n`. -/
theorem div_two_pow_split {X n s : Nat} (hX : X < 2 ^ (n + 1)) (hs : s ≤ n) :
    X / 2 ^ s = X / 2 ^ n % 2 * 2 ^ (n - s) + X % 2 ^ n / 2 ^ s := by
  have hbit : X / 2 ^ n < 2 := by
    rw [Nat.div_lt_iff_lt_mul (by positivity)]
    rw [pow_succ] at hX
    omega
  obtain ⟨k, rfl⟩ := Nat.exists_eq_add_of_le hs
  rw [Nat.mod_eq_of_lt hbit, Nat.add_sub_cancel_left]
  conv_lhs => rw [← Nat.div_add_mod X (2 ^ (s + k))]
  rw [pow_add, Nat.mul_assoc, Nat.mul_add_div (by positivity), Nat.mul_comm]

/-- Under a mask the loop drops the `s` low bits. -/
theorem shiftLoop_mask (s n : Nat) {X : Nat} (hX : X < 2 ^ n) (entry : U64) :
    shiftLoop n ⟨X, n⟩ ⟨maskBits n s, n⟩ entry =
      entry * BitVec.ofNat 64 (2 ^ (n - s)) + BitVec.ofNat 64 (X / 2 ^ s) := by
  induction n generalizing X entry with
  | zero =>
    have hzero : X = 0 := by simpa using hX
    simp [shiftLoop, hzero]
  | succ n ih =>
    have hmod : X % 2 ^ n < 2 ^ n := Nat.mod_lt _ (by positivity)
    simp only [shiftLoop, popMsb_mask]
    simp only [LookupBits.popMsb, Nat.add_sub_cancel]
    rw [ih hmod]
    by_cases h : s ≤ n
    · rw [if_pos h, div_two_pow_split hX h, Nat.succ_sub h, ofNat_two_pow_succ]
      simp only [BitVec.ofNat_add, BitVec.ofNat_mul, mul_one]
      rw [show BitVec.ofNat 64 1 + BitVec.ofNat 64 1 = 2 from rfl]
      ring
    · have hle : 2 ^ (n + 1) ≤ 2 ^ s := Nat.pow_le_pow_right (by decide) (by omega)
      have hsmall : X % 2 ^ n < 2 ^ s := lt_of_le_of_lt (Nat.mod_le _ _) (by omega)
      rw [if_neg h, Nat.div_eq_of_lt hsmall, Nat.div_eq_of_lt (lt_of_lt_of_le hX hle),
        Nat.sub_eq_zero_of_le (by omega), Nat.sub_eq_zero_of_le (by omega)]
      simp


theorem one_shiftLeft (i : Nat) : (1 : U64) <<< i = BitVec.ofNat 64 (2 ^ i) := by
  refine BitVec.eq_of_toNat_eq ?_
  rw [BitVec.toNat_shiftLeft, BitVec.toNat_ofNat, Nat.shiftLeft_eq,
    show (1 : U64).toNat = 1 from rfl, one_mul]

/-- The sign loop sets the bits that the shift by `s` vacates. -/
theorem signLoop_mask {s : Nat} (hs : s < 64) (n i : Nat) (hi : i + n = 64) (signExtension : U64) :
    signLoop n i ⟨maskBits n s, n⟩ signExtension =
      signExtension + BitVec.ofNat 64 (2 ^ 64 - 2 ^ (64 - min s n)) := by
  induction n generalizing i signExtension with
  | zero => simp [signLoop]
  | succ n ih =>
    simp only [signLoop, popMsb_mask]
    rw [ih (i + 1) (by omega)]
    by_cases h : s ≤ n
    · rw [if_pos h, min_eq_left h, min_eq_left (by omega)]
      simp
    · have hi0 : i ≠ 0 := by omega
      have hin : 64 - n = i + 1 := by omega
      have hin' : 64 - (n + 1) = i := by omega
      have hpow : 2 ^ (i + 1) ≤ 2 ^ 64 := Nat.pow_le_pow_right (by decide) (by omega)
      rw [if_neg h, if_neg hi0, min_eq_right (by omega), min_eq_right (by omega), hin, hin',
        one_shiftLeft, add_assoc]
      congr 1
      rw [Nat.sub_zero, show BitVec.ofNat 64 1 = (1 : U64) from rfl, mul_one, ← BitVec.ofNat_add]
      congr 1
      rw [pow_succ] at hpow ⊢
      omega

theorem bitAt_lt (b : U64) (i : Nat) : bitAt b i < 2 := Nat.mod_lt _ (by decide)

/-- The rotation loop over the bits below `n`, those from `s` up in the mask. -/
theorem rotateLoop_mask {y : U64} {s N : Nat} (hy : ∀ i < N, bitAt y i = if s ≤ i then 1 else 0)
    (x : U64) (n : Nat) (hn : n ≤ N) (firstSum secondSum : U64) (prodOnePlusY : Nat) :
    rotateLoop n x y firstSum secondSum prodOnePlusY =
      firstSum * BitVec.ofNat 64 (2 ^ (n - s)) + BitVec.ofNat 64 (x.toNat % 2 ^ n / 2 ^ s) +
        (secondSum + BitVec.ofNat 64 (prodOnePlusY * 2 ^ (n - s) * (x.toNat % 2 ^ min n s))) := by
  induction n generalizing firstSum secondSum prodOnePlusY with
  | zero => simp [rotateLoop, Nat.mod_one]
  | succ n ih =>
    have hmod : x.toNat % 2 ^ (n + 1) = x.toNat % 2 ^ n + 2 ^ n * bitAt x n := Nat.mod_pow_succ ..
    have hlt : x.toNat % 2 ^ (n + 1) < 2 ^ (n + 1) := Nat.mod_lt _ (by positivity)
    simp only [rotateLoop]
    rw [ih (by omega), hy n (by omega)]
    by_cases h : s ≤ n
    · have hsplit := div_two_pow_split hlt h
      have hbit : x.toNat % 2 ^ (n + 1) / 2 ^ n % 2 = bitAt x n := by
        rw [hmod, Nat.add_mul_div_left _ _ (by positivity), Nat.div_eq_of_lt (Nat.mod_lt _ (by positivity)),
          zero_add, Nat.mod_eq_of_lt (bitAt_lt x n)]
      have hlow : x.toNat % 2 ^ (n + 1) % 2 ^ n = x.toNat % 2 ^ n :=
        Nat.mod_mod_of_dvd _ (pow_dvd_pow 2 (Nat.le_succ n))
      rw [hbit, hlow] at hsplit
      rw [if_pos h, hsplit, Nat.succ_sub h, min_eq_right h, min_eq_right (by omega), pow_succ]
      have hzero : BitVec.ofNat 64 ((1 - 1) * prodOnePlusY) = 0 := by simp
      rw [hzero]
      simp only [BitVec.ofNat_add, BitVec.ofNat_mul, mul_one]
      rw [show BitVec.ofNat 64 1 + BitVec.ofNat 64 1 = 2 from rfl, show BitVec.ofNat 64 2 = 2 from rfl]
      ring
    · have hle : 2 ^ (n + 1) ≤ 2 ^ s := Nat.pow_le_pow_right (by decide) (by omega)
      have hsmall : x.toNat % 2 ^ n < 2 ^ s := by
        have := Nat.mod_lt x.toNat (show 0 < 2 ^ n by positivity)
        rw [pow_succ] at hle
        omega
      have hone : BitVec.ofNat 64 1 = (1 : U64) := rfl
      have hzero : BitVec.ofNat 64 0 = (0 : U64) := rfl
      rw [if_neg h, Nat.div_eq_of_lt hsmall, Nat.div_eq_of_lt (lt_of_lt_of_le hlt hle),
        show n - s = 0 by omega, show n + 1 - s = 0 by omega, min_eq_left (by omega),
        min_eq_left (by omega), hmod, one_shiftLeft]
      simp only [BitVec.ofNat_add, BitVec.ofNat_mul, mul_zero, add_zero, Nat.sub_zero, pow_zero, hone,
        hzero]
      ring

/-! ### Entries -/

theorem shiftRightBitmask_toNat {s : Nat} (hs : s ≤ 64) : (shiftRightBitmask s).toNat = maskBits 64 s := by
  have h : ∀ s : Fin 65, (shiftRightBitmask s).toNat = maskBits 64 s := by decide
  exact h ⟨s, by omega⟩

theorem srlEntry_mask (x : U64) {s : Nat} (hs : s ≤ 64) : srlEntry x (shiftRightBitmask s) = x >>> s := by
  unfold srlEntry LookupBits.new
  rw [shiftRightBitmask_toNat hs, shiftLoop_mask s 64 x.isLt, zero_mul, zero_add]
  refine BitVec.eq_of_toNat_eq ?_
  rw [BitVec.toNat_ofNat, BitVec.toNat_ushiftRight, Nat.shiftRight_eq_div_pow,
    Nat.mod_eq_of_lt (lt_of_le_of_lt (Nat.div_le_self _ _) x.isLt)]

/-- An arithmetic shift is the logical one with the vacated bits set under
the sign. -/
theorem sshiftRight_eq_add (x : U64) {s : Nat} (hs : s ≤ 64) :
    x.sshiftRight s = x >>> s + (if x.msb then 1 else 0) * BitVec.ofNat 64 (2 ^ 64 - 2 ^ (64 - s)) := by
  cases hmsb : x.msb with
  | false => simp [BitVec.sshiftRight_eq_of_msb_false hmsb]
  | true =>
    have hx := x.isLt
    have hpow : 2 ^ 64 = 2 ^ s * 2 ^ (64 - s) := by rw [← pow_add, Nat.add_sub_cancel' hs]
    have hpos : 0 < 2 ^ (64 - s) := by positivity
    have hle : 2 ^ (64 - s) ≤ 2 ^ 64 := Nat.pow_le_pow_right (by decide) (Nat.sub_le _ _)
    have hquot : x.toNat / 2 ^ s < 2 ^ (64 - s) := by
      rw [Nat.div_lt_iff_lt_mul (by positivity), mul_comm, ← hpow]
      exact hx
    have hneg : (2 ^ 64 - 1 - x.toNat) / 2 ^ s = 2 ^ (64 - s) - (x.toNat / 2 ^ s + 1) := by
      rw [show 2 ^ 64 - 1 - x.toNat = 2 ^ s * 2 ^ (64 - s) - (x.toNat + 1) by omega,
        Nat.mul_sub_div _ _ _ (by omega)]
    rw [BitVec.sshiftRight_eq_of_msb_true hmsb]
    refine BitVec.eq_of_toNat_eq ?_
    simp only [if_true, one_mul, BitVec.toNat_not, BitVec.toNat_ushiftRight, BitVec.toNat_add,
      BitVec.toNat_ofNat, Nat.shiftRight_eq_div_pow]
    rw [hneg]
    generalize x.toNat / 2 ^ s = quotient at hquot ⊢
    generalize 2 ^ (64 - s) = vacated at hpos hle hquot ⊢
    rw [Nat.mod_eq_of_lt (a := 2 ^ 64 - vacated) (by omega), Nat.mod_eq_of_lt (by omega)]
    omega

theorem sraEntry_mask (x : U64) {s : Nat} (hs : s < 64) :
    sraEntry x (shiftRightBitmask s) = x.sshiftRight s := by
  rw [sshiftRight_eq_add x hs.le]
  simp only [sraEntry, LookupBits.new, shiftRightBitmask_toNat hs.le]
  rw [srlEntry_mask x hs.le, signLoop_mask hs 64 0 rfl, zero_add, min_eq_left hs.le]

/-- A rotation moves the `s` low bits to the top. -/
theorem toNat_rotateRight_split {w s : Nat} (x : BitVec w) (hs : s ≤ w) :
    (x.rotateRight s).toNat = x.toNat / 2 ^ s + 2 ^ (w - s) * (x.toNat % 2 ^ s) := by
  rw [BitVec.toNat_rotateRight]
  rcases hs.lt_or_eq with h | rfl
  · have hpow : 2 ^ w = 2 ^ (w - s) * 2 ^ s := by rw [← pow_add, Nat.sub_add_cancel hs]
    have hquot : x.toNat / 2 ^ s < 2 ^ (w - s) := by
      rw [Nat.div_lt_iff_lt_mul (by positivity), ← hpow]
      exact x.isLt
    rw [Nat.mod_eq_of_lt h, Nat.shiftRight_eq_div_pow, Nat.shiftLeft_eq, hpow, mul_comm x.toNat,
      Nat.mul_mod_mul_left, Nat.or_comm, ← Nat.two_pow_add_eq_or_of_lt hquot, Nat.add_comm]
  · have hx := x.isLt
    rw [Nat.mod_self, Nat.shiftRight_zero, Nat.sub_zero, Nat.shiftLeft_eq, Nat.mul_mod_left,
      Nat.or_zero, Nat.div_eq_of_lt hx, Nat.mod_eq_of_lt hx, Nat.sub_self, pow_zero, one_mul, zero_add]

theorem bitAt_shiftRightBitmask {s : Nat} (hs : s ≤ 64) :
    ∀ i < 64, bitAt (shiftRightBitmask s) i = if s ≤ i then 1 else 0 := by
  have h : ∀ s : Fin 65, ∀ i < 64, bitAt (shiftRightBitmask s) i = if s.val ≤ i then 1 else 0 := by
    decide
  exact h ⟨s, by omega⟩

theorem rotateEntry_mask (x : U64) {s : Nat} (hs : s ≤ 64) :
    rotateLoop 64 x (shiftRightBitmask s) 0 0 1 = x.rotateRight s := by
  have hx := x.isLt
  rw [rotateLoop_mask (bitAt_shiftRightBitmask hs) x 64 le_rfl, zero_mul, zero_add, zero_add, one_mul,
    min_eq_right hs, Nat.mod_eq_of_lt hx, ← BitVec.ofNat_add, ← toNat_rotateRight_split x hs,
    BitVec.ofNat_toNat, BitVec.setWidth_eq]

/-- A mask of a word, whatever is above the word. -/
theorem bitAt_word {y : U64} {s : Nat} (hs : s ≤ 32) (hy : (lowWord y).toNat = maskBits 32 s) :
    ∀ i < 32, bitAt y i = if s ≤ i then 1 else 0 := by
  have h : ∀ s : Fin 33, ∀ i < 32, maskBits 32 s / 2 ^ i % 2 = if s.val ≤ i then 1 else 0 := by
    decide
  intro i hi
  have hbit := Nat.testBit_mod_two_pow y.toNat 32 i
  simp only [Nat.testBit_eq_decide_div_mod_eq, hi, decide_true, Bool.true_and,
    decide_eq_decide] at hbit
  rw [← h ⟨s, by omega⟩ i hi, ← hy, lowWord, BitVec.toNat_setWidth, bitAt]
  omega

theorem rotateWordEntry_mask (x : U64) {y : U64} {s : Nat} (hs : s ≤ 32)
    (hy : (lowWord y).toNat = maskBits 32 s) :
    rotateLoop 32 x y 0 0 1 = ((lowWord x).rotateRight s).setWidth 64 := by
  have hlow : x.toNat % 2 ^ 32 = (lowWord x).toNat := by rw [lowWord, BitVec.toNat_setWidth]
  have hmod : x.toNat % 2 ^ s = (lowWord x).toNat % 2 ^ s := by
    rw [← hlow, Nat.mod_mod_of_dvd _ (pow_dvd_pow 2 hs)]
  rw [rotateLoop_mask (bitAt_word hs hy) x 32 le_rfl, zero_mul, zero_add, zero_add, one_mul,
    min_eq_right hs, hlow, hmod, ← BitVec.ofNat_add, ← toNat_rotateRight_split _ hs,
    BitVec.ofNat_toNat]

/-- The trailing zeros up to the lowest bit set. -/
theorem trailingZeros_eq {w s : Nat} {x : BitVec w} (hs : s < w) (hset : x.getLsbD s = true)
    (hclear : ∀ i < s, x.getLsbD i = false) : trailingZeros x = s := by
  have h : (List.range w).find? (fun i => x.getLsbD i) = .some s := by
    rw [List.find?_range_eq_some]
    exact ⟨hset, List.mem_range.mpr hs, fun i hi => by simp [hclear i hi]⟩
  rw [trailingZeros, h]
  rfl

theorem le_trailingZeros {w s : Nat} {x : BitVec w} (hs : s ≤ w)
    (hclear : ∀ i < s, x.getLsbD i = false) : s ≤ trailingZeros x := by
  rw [trailingZeros]
  cases h : (List.range w).find? fun i => x.getLsbD i with
  | none => exact hs
  | some j =>
    by_contra hlt
    have hj := List.find?_some h
    rw [hclear j (Nat.not_le.mp hlt)] at hj
    cases hj

theorem getLsbD_eq_bitAt (y : U64) (i : Nat) : y.getLsbD i = decide (bitAt y i = 1) := by
  rw [← BitVec.testBit_toNat, Nat.testBit_eq_decide_div_mod_eq]
  rfl

theorem min_trailingZeros_word {y : U64} {s : Nat} (hs : s ≤ 32)
    (hy : (lowWord y).toNat = maskBits 32 s) : min (trailingZeros y) 32 = s := by
  have hbit := bitAt_word hs hy
  have hclear : ∀ i < s, y.getLsbD i = false := by
    intro i hi
    rw [getLsbD_eq_bitAt, hbit i (by omega), if_neg (by omega)]
    rfl
  rcases hs.lt_or_eq with h | rfl
  · have hset : y.getLsbD s = true := by
      rw [getLsbD_eq_bitAt, hbit s h, if_pos le_rfl]
      rfl
    rw [trailingZeros_eq (by omega) hset hclear, min_eq_left h.le]
  · exact min_eq_right (le_trailingZeros (by decide) hclear)

end LightningJolt
