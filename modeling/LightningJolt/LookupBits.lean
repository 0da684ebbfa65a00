/-
The bit vector of a lookup index (`jolt-core/src/utils/lookup_bits.rs`) in a build that checks its
shifts or masks them: what each operation does to the list of the bits, the highest first.
-/
import LightningJolt.LookupEntry
import LightningJolt.SparseEval
import LightningJolt.UniPoly

namespace LightningJolt

/-! ## Shifts and subtractions of a build -/

namespace BuildProfile

variable (π : BuildProfile)

/-- The distance of a `u128` shift, reduced where it is not checked. -/
def shiftU128 (n : Nat) : Option Nat :=
  if n < 128 then .some n else if π.overflowChecks then .none else .some (n % 128)

/-- `u8` subtraction. -/
def subU8 (a b : Nat) : Option Nat :=
  if b ≤ a then .some (a - b) else if π.overflowChecks then .none else .some (a + 2 ^ 8 - b)

/-- `u32` subtraction. -/
def subU32 (a b : Nat) : Option Nat :=
  if b ≤ a then .some (a - b) else if π.overflowChecks then .none else .some (a + 2 ^ 32 - b)

variable {π}

theorem shiftU128_eq {n : Nat} (h : n < 128) : π.shiftU128 n = .some n := if_pos h

theorem subU8_eq {a b : Nat} (h : b ≤ a) : π.subU8 a b = .some (a - b) := if_pos h

end BuildProfile

/-! ## The operations -/

/-- `u128::trailing_zeros`. -/
def trailingZerosU128 (x : U128) : Nat := ((List.range 128).takeWhile fun i => !x.getLsbD i).length

/-- `u128::leading_ones`. -/
def leadingOnesU128 (x : U128) : Nat := ((List.range 128).takeWhile fun i => x.getMsbD i).length

namespace LookupBits

variable (π : BuildProfile)

/-- `u128::from`. -/
def toU128 (b : LookupBits) : U128 := BitVec.ofNat 128 b.bits

/-- `u64::from`. -/
def toU64 (b : LookupBits) : Option U64 := if b.bits < 2 ^ 64 then .some (BitVec.ofNat 64 b.bits) else .none

/-- `new`, of any length. -/
def ofLen (bits : U128) (len : Nat) : Option LookupBits :=
  if π.debugAssertions = true ∧ 128 < len then .none
  else if len < 128 then do .some ⟨(bits % ((1 : U128) <<< (← π.shiftU128 len))).toNat, len⟩
  else .some ⟨bits.toNat, len % 256⟩

/-- `uninterleave`, of any length. -/
def uninterleaveChecked (b : LookupBits) : Option (LookupBits × LookupBits) := do
  let (xBits, yBits) := uninterleaveBits b.toU128
  let x ← ofLen π (xBits.setWidth 128) (b.len / 2)
  let y ← ofLen π (yBits.setWidth 128) (← π.subU8 b.len x.len)
  .some (x, y)

/-- `split`, at any distance. -/
def splitChecked (b : LookupBits) (suffixLen : Nat) : Option (LookupBits × LookupBits) := do
  let bits := b.toU128
  let suffixBits := bits % ((1 : U128) <<< (← π.shiftU128 suffixLen))
  let suff ← ofLen π suffixBits suffixLen
  let prefixBits := bits >>> (← π.shiftU128 suffixLen)
  let pref ← ofLen π prefixBits (← π.subUsize b.len suffixLen)
  .some (pref, suff)

/-- `pop_msb`, of any length. -/
def popMsbChecked (b : LookupBits) : Option (Nat × LookupBits) := do
  let bits := b.toU128
  let last ← π.subU8 b.len 1
  let msb := (bits >>> (← π.shiftU128 last)) &&& 1
  let bits := bits % ((1 : U128) <<< (← π.shiftU128 last))
  .some (msb.toNat, ⟨bits.toNat, last⟩)

/-- `trailing_zeros`. -/
def trailingZeros (b : LookupBits) : Nat := min (trailingZerosU128 b.toU128) b.len

/-- `leading_ones`; `wrapping_shl` masks the distance in every build. -/
def leadingOnes (b : LookupBits) : Option Nat := do
  .some (leadingOnesU128 (b.toU128 <<< ((← π.subU32 128 b.len) % 128)))

/-- `pop_msb` again and again. -/
def popAll : Nat → LookupBits → Option (List Nat × LookupBits)
  | 0, b => .some ([], b)
  | n + 1, b => do
    let (msb, b) ← b.popMsbChecked π
    let (msbs, last) ← popAll n b
    .some (msb :: msbs, last)

/-! ## The list of the bits -/

/-- The bits, the highest first. -/
def toList (b : LookupBits) : List Bool := indexBits b.len b.bits

/-- At most 128 bits, and none set beyond the length. -/
structure Valid (b : LookupBits) : Prop where
  len : b.len ≤ 128
  bits : b.bits < 2 ^ b.len

variable {π} {b : LookupBits}

theorem Valid.toNat_toU128 (h : b.Valid) : b.toU128.toNat = b.bits := by
  rw [toU128, BitVec.toNat_ofNat]
  exact Nat.mod_eq_of_lt (h.bits.trans_le (Nat.pow_le_pow_right (by decide) h.len))

theorem toNat_mod_shift (x : U128) {n : Nat} (h : n < 128) : (x % ((1 : U128) <<< n)).toNat = x.toNat % 2 ^ n := by
  have hlt : 2 ^ n < 2 ^ 128 := Nat.pow_lt_pow_right (by decide) h
  rw [BitVec.toNat_umod, BitVec.toNat_shiftLeft, show (1 : U128).toNat = 1 from rfl, Nat.shiftLeft_eq, one_mul,
    Nat.mod_eq_of_lt hlt]

/-- **A vector of any length** holds the last bits of its value. -/
theorem ofLen_eq (x : U128) {len : Nat} (h : len ≤ 128) : ofLen π x len = .some ⟨x.toNat % 2 ^ len, len⟩ := by
  rw [ofLen, if_neg (by omega)]
  split_ifs with hlt
  · rw [BuildProfile.shiftU128_eq hlt, Option.bind_eq_bind, Option.bind_some, toNat_mod_shift x hlt]
  · obtain rfl : len = 128 := by omega
    rw [Nat.mod_eq_of_lt x.isLt]

theorem valid_ofLen (x : U128) {len : Nat} (h : len ≤ 128) : Valid ⟨x.toNat % 2 ^ len, len⟩ :=
  ⟨h, Nat.mod_lt _ (Nat.two_pow_pos len)⟩

/-! ## Splitting -/

/-- A split at a distance that can be shifted by. -/
theorem Valid.split_eq (h : b.Valid) {s : Nat} (hs : s ≤ b.len) (hlt : s < 128) :
    b.splitChecked π s = .some (⟨b.bits / 2 ^ s, b.len - s⟩, ⟨b.bits % 2 ^ s, s⟩) := by
  have hlen := h.len
  have hfront : b.bits / 2 ^ s < 2 ^ (b.len - s) := by
    rw [Nat.div_lt_iff_lt_mul (Nat.two_pow_pos s), ← pow_add, Nat.sub_add_cancel hs]
    exact h.bits
  rw [splitChecked, BuildProfile.shiftU128_eq hlt]
  simp only [Option.bind_eq_bind, Option.bind_some]
  rw [ofLen_eq _ (by omega), BuildProfile.subUsize, if_pos hs, Option.bind_some, Option.bind_some, ofLen_eq _ (by omega),
    toNat_mod_shift _ hlt, BitVec.toNat_ushiftRight, h.toNat_toU128, Nat.mod_mod, Nat.shiftRight_eq_div_pow,
    Nat.mod_eq_of_lt hfront]
  rfl

/-- A split at 128 panics where shifts are checked; where they are masked it loses the bits. -/
theorem split_all (hlen : b.len = 128) :
    b.splitChecked π 128 = if π.overflowChecks then .none else .some (⟨0, 0⟩, ⟨0, 128⟩) := by
  have hshift : π.shiftU128 128 = if π.overflowChecks then .none else .some 0 := rfl
  rw [splitChecked, hshift]
  cases π.overflowChecks
  · have hzero (x : U128) : (x % ((1 : U128) <<< 0)).toNat = 0 := by
      rw [toNat_mod_shift x (by decide), pow_zero, Nat.mod_one]
    simp only [Bool.false_eq_true, if_false, Option.bind_eq_bind, Option.bind_some]
    rw [ofLen_eq _ (by decide), BuildProfile.subUsize, if_pos hlen.ge, Option.bind_some, Option.bind_some,
      ofLen_eq _ (by omega), hzero, hlen, Nat.sub_self, pow_zero, Nat.mod_one]
    rfl
  · rfl

/-! ## Popping -/

theorem Valid.popMsb_eq (h : b.Valid) (hpos : 0 < b.len) : b.popMsbChecked π = .some b.popMsb := by
  have hlen := h.len
  have hone (x : U128) : (x &&& 1).toNat = x.toNat % 2 := by
    rw [BitVec.toNat_and, show (1 : U128).toNat = 1 from rfl, Nat.and_one_is_mod]
  rw [popMsbChecked, popMsb, BuildProfile.subU8_eq hpos]
  simp only [Option.bind_eq_bind, Option.bind_some]
  rw [BuildProfile.shiftU128_eq (by omega), Option.bind_some, Option.bind_some, hone, BitVec.toNat_ushiftRight,
    toNat_mod_shift _ (by omega), h.toNat_toU128, Nat.shiftRight_eq_div_pow]

theorem popAll_eq {n value : Nat} (hn : n ≤ 128) (hvalue : value < 2 ^ n) :
    popAll π n ⟨value, n⟩ = .some ((indexBits n value).map Bool.toNat, ⟨0, 0⟩) := by
  induction n generalizing value with
  | zero =>
    obtain rfl : value = 0 := by simpa using hvalue
    rfl
  | succ n ih =>
    have hvalid : Valid ⟨value, n + 1⟩ := ⟨hn, hvalue⟩
    have hbit : value / 2 ^ n % 2 = (value.testBit n).toNat := (Nat.toNat_testBit value n).symm
    rw [popAll, hvalid.popMsb_eq (Nat.succ_pos n), Option.bind_eq_bind, Option.bind_some, popMsb]
    simp only [Nat.add_sub_cancel]
    rw [ih (by omega) (Nat.mod_lt _ (Nat.two_pow_pos n)), indexBits_succ, hbit]
    rfl

/-! ## Interleaving -/

theorem testBit_setWidth (x : U64) (i : Nat) : (x.setWidth 128).toNat.testBit i = x.getLsbD i := by
  rw [BitVec.testBit_toNat, BitVec.getLsbD_setWidth]
  by_cases hi : i < 128
  · rw [decide_eq_true hi, Bool.true_and]
  · rw [BitVec.getLsbD_of_ge x i (by omega), Bool.and_false]

/-- The halves: the bits of the odd places and those of the even places, from the lowest. -/
structure Halves (b x y : LookupBits) : Prop where
  lenX : x.len = b.len / 2
  lenY : y.len = b.len - b.len / 2
  validX : x.Valid
  validY : y.Valid
  bitsX : ∀ i < x.len, x.bits.testBit i = b.bits.testBit (2 * i + 1)
  bitsY : ∀ i < y.len, y.bits.testBit i = b.bits.testBit (2 * i)

theorem Valid.uninterleave_eq (h : b.Valid) : ∃ x y, b.uninterleaveChecked π = .some (x, y) ∧ Halves b x y := by
  have hlen := h.len
  obtain ⟨xBits, yBits, hhalves⟩ : ∃ xBits yBits, uninterleaveBits b.toU128 = (xBits, yBits) := ⟨_, _, rfl⟩
  have hx : xBits = gatherBits (b.toU128 >>> 1) := (congrArg Prod.fst hhalves).symm
  have hy : yBits = gatherBits b.toU128 := (congrArg Prod.snd hhalves).symm
  have hbit (i : Nat) : b.toU128.getLsbD i = b.bits.testBit i := by rw [← BitVec.testBit_toNat, h.toNat_toU128]
  refine ⟨⟨(xBits.setWidth 128).toNat % 2 ^ (b.len / 2), b.len / 2⟩,
    ⟨(yBits.setWidth 128).toNat % 2 ^ (b.len - b.len / 2), b.len - b.len / 2⟩, ?_, rfl, rfl, valid_ofLen _ (by omega),
    valid_ofLen _ (by omega), fun i hi => ?_, fun i hi => ?_⟩
  · rw [uninterleaveChecked, hhalves]
    simp only [Option.bind_eq_bind]
    rw [ofLen_eq _ (by omega), Option.bind_some, BuildProfile.subU8_eq (Nat.div_le_self _ _), Option.bind_some,
      ofLen_eq _ (by omega)]
    rfl
  · simp only at hi
    rw [Nat.testBit_mod_two_pow, decide_eq_true hi, Bool.true_and, testBit_setWidth, hx,
      getLsbD_gatherBits _ (by omega), BitVec.getLsbD_ushiftRight, hbit, Nat.add_comm]
  · simp only at hi
    rw [Nat.testBit_mod_two_pow, decide_eq_true hi, Bool.true_and, testBit_setWidth, hy,
      getLsbD_gatherBits _ (by omega), hbit]

/-- The halves by the list: every other bit each, an odd bit at the front going to the second. -/
theorem Halves.toList {x y : LookupBits} (h : Halves b x y) :
    x.toList = (List.range (b.len / 2)).map (fun i => b.toList.getD (2 * i + b.len % 2) false) ∧
      y.toList = (List.range (b.len - b.len / 2)).map fun i => b.toList.getD (2 * i + 1 - b.len % 2) false := by
  have hget {i : Nat} (hi : i < b.len) : b.toList.getD i false = b.bits.testBit (b.len - 1 - i) := by
    rw [LookupBits.toList, indexBits, List.getD_eq_getElem _ _ (by rw [List.length_map, List.length_range]; exact hi),
      List.getElem_map, List.getElem_range]
  constructor
  · rw [LookupBits.toList, indexBits, h.lenX]
    refine List.map_congr_left fun i hi => ?_
    have hi := List.mem_range.mp hi
    rw [h.bitsX _ (by rw [h.lenX]; omega), hget (by omega)]
    congr 1
    omega
  · rw [LookupBits.toList, indexBits, h.lenY]
    refine List.map_congr_left fun i hi => ?_
    have hi := List.mem_range.mp hi
    rw [h.bitsY _ (by rw [h.lenY]; omega), hget (by omega)]
    congr 1
    omega

theorem Valid.toU64_eq (h : b.Valid) (hlen : b.len ≤ 64) :
    ∃ x : U64, b.toU64 = .some x ∧ ∀ i, x.getLsbD i = b.bits.testBit i := by
  have hlt : b.bits < 2 ^ 64 := h.bits.trans_le (Nat.pow_le_pow_right (by decide) hlen)
  refine ⟨BitVec.ofNat 64 b.bits, if_pos hlt, fun i => ?_⟩
  rw [← BitVec.testBit_toNat, BitVec.toNat_ofNat, Nat.mod_eq_of_lt hlt]

theorem Valid.testBit_of_ge (h : b.Valid) {i : Nat} (hi : b.len ≤ i) : b.bits.testBit i = false :=
  Nat.testBit_lt_two_pow (h.bits.trans_le (Nat.pow_le_pow_right (by decide) hi))

/-- The halves interleaved are the value again. -/
theorem Halves.interleave {x y : LookupBits} (h : Halves b x y) (hb : b.Valid) :
    ∃ x64 y64, x.toU64 = .some x64 ∧ y.toU64 = .some y64 ∧ interleaveBits x64 y64 = b.toU128 := by
  have hlen := hb.len
  obtain ⟨x64, hx, hxbit⟩ := h.validX.toU64_eq (by rw [h.lenX]; omega)
  obtain ⟨y64, hy, hybit⟩ := h.validY.toU64_eq (by rw [h.lenY]; omega)
  have hbitX (i : Nat) : x.bits.testBit i = b.bits.testBit (2 * i + 1) := by
    rcases Nat.lt_or_ge i x.len with hi | hi
    · exact h.bitsX i hi
    · rw [h.validX.testBit_of_ge hi, hb.testBit_of_ge (by rw [h.lenX] at hi; omega)]
  have hbitY (i : Nat) : y.bits.testBit i = b.bits.testBit (2 * i) := by
    rcases Nat.lt_or_ge i y.len with hi | hi
    · exact h.bitsY i hi
    · rw [h.validY.testBit_of_ge hi, hb.testBit_of_ge (by rw [h.lenY] at hi; omega)]
  refine ⟨x64, y64, hx, hy, BitVec.eq_of_getLsbD_eq fun j hj => ?_⟩
  rw [← BitVec.testBit_toNat (x := b.toU128), hb.toNat_toU128]
  obtain ⟨i, rfl | rfl⟩ := Nat.even_or_odd' j
  · rw [(getLsbD_interleaveBits x64 y64 (by omega)).1, hybit, hbitY]
  · rw [(getLsbD_interleaveBits x64 y64 (by omega)).2, hxbit, hbitX]

/-! ## Counting -/

/-- A run at the front of a range, cut where the range is. -/
theorem length_takeWhile_range (p : Nat → Bool) {n m : Nat} (h : n ≤ m) :
    ((List.range n).takeWhile p).length = min ((List.range m).takeWhile p).length n := by
  have htake : List.range n = (List.range m).take n := by rw [List.take_range, Nat.min_eq_left h]
  rw [htake, ← List.take_takeWhile, List.length_take, Nat.min_comm]

theorem length_takeWhile_range_le {p : Nat → Bool} {n : Nat} (m : Nat) (h : ∀ i, p i = true → i < n) :
    ((List.range m).takeWhile p).length ≤ n := by
  by_contra hlt
  have hfront := List.prefix_iff_eq_take.mp (List.takeWhile_prefix (l := List.range m) p)
  rw [List.take_range] at hfront
  have hmem : n ∈ (List.range m).takeWhile p := by
    rw [hfront, List.mem_range, Nat.lt_min]
    have hle := (List.takeWhile_prefix (l := List.range m) p).length_le
    rw [List.length_range] at hle
    omega
  exact absurd (h n (List.mem_takeWhile_imp hmem)) (Nat.lt_irrefl n)

theorem Valid.trailingZeros_eq (h : b.Valid) : b.trailingZeros = (b.toList.reverse.takeWhile (! ·)).length := by
  have hreverse : b.toList.reverse = (List.range b.len).map b.bits.testBit := by
    refine List.ext_getElem (by simp [toList, indexBits]) fun i h1 h2 => ?_
    simp only [List.length_map, List.length_range] at h2
    simp only [toList, indexBits, List.getElem_reverse, List.getElem_map, List.getElem_range, List.length_map,
      List.length_range]
    congr 1
    omega
  rw [hreverse, List.takeWhile_map, List.length_map, trailingZeros, trailingZerosU128]
  have hrange := length_takeWhile_range (fun i => !b.bits.testBit i) h.len
  simp only [← BitVec.testBit_toNat, h.toNat_toU128]
  exact hrange.symm

theorem Valid.leadingOnes_eq (h : b.Valid) : b.leadingOnes π = .some (b.toList.takeWhile id).length := by
  have hlen := h.len
  have hbit (i : Nat) : (b.toU128 <<< ((128 - b.len) % 128)).getMsbD i =
      (decide (i < b.len) && b.bits.testBit (b.len - 1 - i)) := by
    rw [BitVec.getMsbD_eq_getLsbD, BitVec.getLsbD_shiftLeft, ← BitVec.testBit_toNat, h.toNat_toU128]
    rcases Nat.eq_zero_or_pos b.len with hzero | hpos
    · rw [hzero, h.testBit_of_ge (by omega)]
      simp
    · rw [Nat.mod_eq_of_lt (show 128 - b.len < 128 by omega)]
      by_cases hin : i < b.len
      · rw [decide_eq_true hin, decide_eq_true (show i < 128 by omega), decide_eq_true (show 128 - 1 - i < 128 by omega),
          decide_eq_false (show ¬ 128 - 1 - i < 128 - b.len by omega)]
        simp only [Bool.true_and, Bool.not_false]
        congr 1
        omega
      · rw [decide_eq_false hin, Bool.false_and]
        by_cases hi : i < 128
        · rw [decide_eq_true (show 128 - 1 - i < 128 - b.len by omega)]
          simp
        · rw [decide_eq_false hi, Bool.false_and]
  have hcut := length_takeWhile_range (fun i => decide (i < b.len) && b.bits.testBit (b.len - 1 - i)) hlen
  have hle := length_takeWhile_range_le (p := fun i => decide (i < b.len) && b.bits.testBit (b.len - 1 - i)) (n := b.len) 128
    fun i hi => by simpa using (Bool.and_eq_true_iff.mp hi).1
  have hlist : (b.toList.takeWhile id).length =
      ((List.range b.len).takeWhile fun i => decide (i < b.len) && b.bits.testBit (b.len - 1 - i)).length := by
    have hmap : b.toList = (List.range b.len).map fun i => decide (i < b.len) && b.bits.testBit (b.len - 1 - i) :=
      List.map_congr_left fun i hi => by rw [decide_eq_true (List.mem_range.mp hi), Bool.true_and]
    rw [hmap, List.takeWhile_map, List.length_map]
    rfl
  rw [leadingOnes, BuildProfile.subU32, if_pos hlen, Option.bind_eq_bind, Option.bind_some, leadingOnesU128, hlist, hcut,
    Nat.min_eq_left hle]
  simp only [hbit]

/-! ## When the operations are those of the list -/

/-- The operations are those of the list of the bits, and none panics. -/
structure Faithful (π : BuildProfile) (b : LookupBits) (s : Nat) : Prop where
  split : ∃ pref suff, b.splitChecked π s = .some (pref, suff) ∧ pref.toList = b.toList.take (b.len - s) ∧
    suff.toList = b.toList.drop (b.len - s)
  uninterleave : ∃ x y, b.uninterleaveChecked π = .some (x, y) ∧
    x.toList = (List.range (b.len / 2)).map (fun i => b.toList.getD (2 * i + b.len % 2) false) ∧
    y.toList = (List.range (b.len - b.len / 2)).map (fun i => b.toList.getD (2 * i + 1 - b.len % 2) false) ∧
    ∃ x64 y64, x.toU64 = .some x64 ∧ y.toU64 = .some y64 ∧ interleaveBits x64 y64 = b.toU128
  interleaved : ∀ x y : U64, uninterleaveBits (interleaveBits x y) = (x, y)
  popMsb : ∃ last, popAll π b.len b = .some (b.toList.map Bool.toNat, last) ∧ last.len = 0
  trailingZeros : b.trailingZeros = (b.toList.reverse.takeWhile (! ·)).length
  leadingOnes : b.leadingOnes π = .some (b.toList.takeWhile id).length

theorem Valid.faithful_iff (h : b.Valid) {s : Nat} (hs : s ≤ b.len) :
    b.Faithful π s ↔ s < 128 ∨ π.overflowChecks = false ∧ b.bits = 0 := by
  have hlen := h.len
  obtain ⟨x, y, hhalves, hxy⟩ := h.uninterleave_eq (π := π)
  have hrest (hsplit : ∃ pref suff, b.splitChecked π s = .some (pref, suff) ∧ pref.toList = b.toList.take (b.len - s) ∧
      suff.toList = b.toList.drop (b.len - s)) : b.Faithful π s := {
    split := hsplit
    uninterleave := ⟨x, y, hhalves, hxy.toList.1, hxy.toList.2, hxy.interleave h⟩
    interleaved := uninterleave_interleave
    popMsb := ⟨⟨0, 0⟩, popAll_eq h.len h.bits, rfl⟩
    trailingZeros := h.trailingZeros_eq
    leadingOnes := h.leadingOnes_eq }
  constructor
  · intro hfaithful
    by_cases hlt : s < 128
    · exact .inl hlt
    · obtain rfl : s = 128 := by omega
      obtain ⟨pref, suff, hsplit, -, hsuff⟩ := hfaithful.split
      rw [split_all (by omega)] at hsplit
      cases hchecks : π.overflowChecks with
      | true =>
        rw [hchecks, if_pos rfl] at hsplit
        cases hsplit
      | false =>
        rw [hchecks, if_neg (by decide)] at hsplit
        cases hsplit
        -- the suffix is all zeros, so the bits are
        rw [show b.len - 128 = 0 by omega, List.drop_zero, toList, toList, show b.len = 128 by omega] at hsuff
        refine .inr ⟨rfl, Nat.eq_of_testBit_eq fun i => ?_⟩
        rw [Nat.zero_testBit]
        rcases Nat.lt_or_ge i 128 with hi | hi
        · have hbit := congrArg (·[128 - 1 - i]?) hsuff
          simp only [indexBits, List.getElem?_map, List.getElem?_range (show 128 - 1 - i < 128 by omega), Option.map_some,
            Nat.zero_testBit, Option.some.injEq, show 128 - 1 - (128 - 1 - i) = i by omega] at hbit
          exact hbit.symm
        · exact h.testBit_of_ge (by omega)
  · intro hcond
    by_cases hlt : s < 128
    · refine hrest ⟨_, _, h.split_eq hs hlt, ?_, ?_⟩
      · rw [toList, toList, take_indexBits (Nat.sub_le _ _), Nat.sub_sub_self hs, Nat.shiftRight_eq_div_pow]
      · rw [toList, toList, drop_indexBits hs]
    · obtain ⟨hchecks, hzero⟩ := hcond.resolve_left hlt
      obtain rfl : s = 128 := by omega
      have hall : b.len = 128 := by omega
      refine hrest ⟨⟨0, 0⟩, ⟨0, 128⟩, by rw [split_all hall, hchecks]; rfl, ?_, ?_⟩
      · rw [hall, Nat.sub_self, List.take_zero]
        rfl
      · rw [hall, Nat.sub_self, List.drop_zero, toList, toList, hall, hzero]

end LookupBits

/-- **A vector of at most 128 bits is the list of its bits just when** the split is not one at 128, or
it is of zeros in a build that masks its shifts. -/
theorem lookupBits_faithful_iff (π : BuildProfile) (value : U128) {len s : Nat} (hlen : len ≤ 128) (hs : s ≤ len) :
    (∃ b, LookupBits.ofLen π value len = .some b ∧ b.toList = indexBits len value.toNat ∧ b.Faithful π s) ↔
      s < 128 ∨ π.overflowChecks = false ∧ value = 0 := by
  have hvalid := LookupBits.valid_ofLen value hlen
  have hlist : LookupBits.toList ⟨value.toNat % 2 ^ len, len⟩ = indexBits len value.toNat := by
    have hdrop : _ = indexBits len (value.toNat % 2 ^ len) := drop_indexBits (Nat.le_refl len)
    rw [Nat.sub_self, List.drop_zero] at hdrop
    exact hdrop.symm
  have hiff := hvalid.faithful_iff (π := π) hs
  simp only at hiff
  constructor
  · rintro ⟨b, hb, -, hfaithful⟩
    rw [LookupBits.ofLen_eq value hlen] at hb
    cases hb
    rcases hiff.mp hfaithful with hlt | ⟨hchecks, hzero⟩
    · exact .inl hlt
    · by_cases hlt : s < 128
      · exact .inl hlt
      · obtain rfl : len = 128 := by omega
        rw [Nat.mod_eq_of_lt value.isLt] at hzero
        exact .inr ⟨hchecks, BitVec.eq_of_toNat_eq hzero⟩
  · intro hcond
    refine ⟨_, LookupBits.ofLen_eq value hlen, hlist, hiff.mpr (hcond.imp_right fun ⟨hchecks, hzero⟩ => ⟨hchecks, ?_⟩)⟩
    rw [hzero]
    exact Nat.zero_mod _

theorem lookupBits_faithful_five : ((3 : Nat) ≤ 128 ∧ 1 ≤ 3) ∧
    ∃ b, LookupBits.ofLen ⟨true, true⟩ 5 3 = .some b ∧ b.toList = indexBits 3 5 ∧ b.Faithful ⟨true, true⟩ 1 :=
  ⟨by decide, (lookupBits_faithful_iff ⟨true, true⟩ 5 (by decide) (by decide)).mpr (.inl (by decide))⟩

/-- Of 128 bits, all in the suffix, a build that checks its shifts panics and another loses the one set. -/
theorem lookupBits_split_all :
    LookupBits.splitChecked ⟨true, true⟩ ⟨1, 128⟩ 128 = .none ∧
      LookupBits.splitChecked ⟨false, false⟩ ⟨1, 128⟩ 128 = .some (⟨0, 0⟩, ⟨0, 128⟩) ∧
      ¬ ∀ (π : BuildProfile) (value : U128) (len s : Nat), len ≤ 128 → s ≤ len →
        ∃ b, LookupBits.ofLen π value len = .some b ∧ b.toList = indexBits len value.toNat ∧ b.Faithful π s := by
  refine ⟨rfl, rfl, fun hall => ?_⟩
  obtain ⟨b, hb, -, hfaithful⟩ := hall ⟨true, true⟩ 1 128 128 (by decide) (by decide)
  rw [LookupBits.ofLen_eq _ (by decide)] at hb
  cases hb
  obtain ⟨pref, suff, hsplit, -⟩ := hfaithful.split
  rw [LookupBits.split_all rfl] at hsplit
  cases hsplit

end LightningJolt
