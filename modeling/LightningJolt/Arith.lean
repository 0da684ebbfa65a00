/-
Two's-complement arithmetic: sign masks, conditional negation and the high
half of a product as integers, and the quotient and remainder that the checks
of a division by advice single out.
-/
import Mathlib

namespace LightningJolt

section Signs

variable {w : Nat}

theorem two_pow_pred (hw : 0 < w) : (2 : Int) ^ w = 2 * 2 ^ (w - 1) := by
  obtain ⟨n, rfl⟩ : ∃ n, w = n + 1 := ⟨w - 1, by omega⟩
  rw [pow_succ, Nat.add_sub_cancel]
  ring

/-- The range of a signed value. -/
theorem toInt_range (hw : 0 < w) (a : BitVec w) : -2 ^ (w - 1) ≤ a.toInt ∧ a.toInt < 2 ^ (w - 1) := by
  have hlo := @BitVec.le_two_mul_toInt w a
  have hhi := @BitVec.two_mul_toInt_lt w a
  rw [two_pow_pred hw] at hlo hhi
  omega

theorem neg_one_toInt (hw : 0 < w) : (-1 : BitVec w).toInt = -1 := by
  rw [show (-1 : BitVec w) = BitVec.allOnes w from BitVec.neg_one_eq_allOnes, BitVec.toInt_allOnes,
    if_pos hw]

/-- The arithmetic shift by all but one bit is the mask of the sign. -/
theorem sshiftRight_pred (hw : 0 < w) (a : BitVec w) :
    a.sshiftRight (w - 1) = if a.msb then -1 else 0 := by
  have ha := toInt_range hw a
  have hM : (0 : Int) < 2 ^ (w - 1) := by positivity
  refine BitVec.toInt_inj.mp ?_
  rw [BitVec.toInt_sshiftRight, Int.shiftRight_eq_div_pow, BitVec.msb_eq_toInt]
  push_cast
  by_cases hneg : a.toInt < 0
  · have hdiv : a.toInt / 2 ^ (w - 1) = -1 := by
      rw [Int.ediv_eq_iff_of_pos hM]
      constructor <;> linarith
    simp only [hneg, decide_true, if_true]
    rw [hdiv, neg_one_toInt hw]
  · rw [Int.ediv_eq_zero_of_lt (by omega) ha.2]
    simp [hneg]

/-- Exclusive-or with a sign mask, less the mask, negates under the mask. -/
theorem xor_mask_sub (r : BitVec w) (neg : Bool) :
    (r ^^^ (if neg then -1 else 0)) - (if neg then (-1 : BitVec w) else 0) = if neg then -r else r := by
  cases neg with
  | true =>
    have hxor : r ^^^ (-1 : BitVec w) = ~~~r := by
      rw [show (-1 : BitVec w) = BitVec.allOnes w from BitVec.neg_one_eq_allOnes, BitVec.xor_allOnes]
    simp only [if_true, hxor]
    rw [BitVec.neg_eq_not_add r, sub_neg_eq_add]
    rfl
  | false => simp

theorem xor_sshiftRight_sub (hw : 0 < w) (r a : BitVec w) :
    (r ^^^ a.sshiftRight (w - 1)) - a.sshiftRight (w - 1) = if a.msb then -r else r := by
  rw [sshiftRight_pred hw, xor_mask_sub]

end Signs

/-! ## The high half of a product -/

section Product

variable {w : Nat}

/-- The high half is the sign of the low one exactly when the product does
not overflow. -/
theorem high_eq_sign_iff (hw : 0 < w) {a b hi : BitVec w} (hhi : hi.toInt = a.toInt * b.toInt / 2 ^ w) :
    hi = (a * b).sshiftRight (w - 1) ↔ (a * b).toInt = a.toInt * b.toInt := by
  have hpow := two_pow_pred hw
  have hM : (0 : Int) < 2 ^ (w - 1) := by positivity
  have hlow : (a * b).toInt = (a.toInt * b.toInt).bmod (2 ^ w) := BitVec.toInt_mul a b
  rw [Int.bmod_def] at hlow
  push_cast at hlow
  have hsplit := Int.mul_ediv_add_emod (a.toInt * b.toInt) (2 ^ w)
  rw [sshiftRight_pred hw, BitVec.msb_eq_toInt]
  generalize a.toInt * b.toInt = P at *
  rw [← BitVec.toInt_inj, hhi]
  rw [hpow] at hlow hsplit ⊢
  have hnonneg := Int.emod_nonneg P (show (2 * 2 ^ (w - 1) : Int) ≠ 0 by omega)
  have hlt := Int.emod_lt_of_pos P (show (0 : Int) < 2 * 2 ^ (w - 1) by omega)
  by_cases hneg : (a * b).toInt < 0
  · rw [if_pos (by simpa using hneg), neg_one_toInt hw]
    have hemod : (a * b).toInt = P % (2 * 2 ^ (w - 1)) - 2 * 2 ^ (w - 1) := by
      split at hlow <;> omega
    constructor
    · intro h
      rw [h] at hsplit
      omega
    · intro h
      nlinarith
  · have hzero : (0 : BitVec w).toInt = 0 := BitVec.toInt_zero
    rw [if_neg (by simpa using hneg), hzero]
    have hemod : (a * b).toInt = P % (2 * 2 ^ (w - 1)) := by
      split at hlow <;> omega
    constructor
    · intro h
      rw [h] at hsplit
      omega
    · intro h
      nlinarith

/-- The signed high half from the unsigned one: the other factor is taken off
for each factor that is negative. -/
theorem signed_high (hw : 0 < w) {a b hi : BitVec w} (hhi : hi.toNat = a.toNat * b.toNat / 2 ^ w) :
    (hi + (if a.msb then -b else 0) + (if b.msb then -a else 0)).toInt =
      a.toInt * b.toInt / 2 ^ w := by
  have hW : (2 : Int) ^ w ≠ 0 := by positivity
  have key : hi + (if a.msb then -b else 0) + (if b.msb then -a else 0) =
      BitVec.ofInt w (a.toInt * b.toInt / 2 ^ w) := by
    have hsigned : ∀ x : BitVec w, x.toInt = x.toNat - 2 ^ w * (if x.msb then 1 else 0) := by
      intro x
      rw [BitVec.toInt_eq_msb_cond]
      split <;> push_cast <;> ring
    have hofNat : ∀ x : BitVec w, BitVec.ofInt w x.toNat = x := by
      intro x
      rw [BitVec.ofInt_natCast, BitVec.ofNat_toNat, BitVec.setWidth_eq]
    have hwrap : BitVec.ofInt w (2 ^ w) = 0 := by
      refine BitVec.eq_of_toNat_eq ?_
      simp
    have hexpand : a.toInt * b.toInt / 2 ^ w = (a.toNat * b.toNat : Int) / 2 ^ w +
        (-(if a.msb then 1 else 0) * b.toNat + -(if b.msb then 1 else 0) * a.toNat +
          2 ^ w * ((if a.msb then 1 else 0) * (if b.msb then 1 else 0))) := by
      rw [hsigned a, hsigned b, ← Int.add_mul_ediv_left _ _ hW]
      congr 1
      ring
    have hhiInt : (a.toNat * b.toNat : Int) / 2 ^ w = hi.toNat := by
      rw [hhi]
      push_cast
      rfl
    rw [hexpand, hhiInt]
    simp only [BitVec.ofInt_add, BitVec.ofInt_mul, hofNat, hwrap]
    cases a.msb <;> cases b.msb <;> simp [BitVec.ofInt_neg, BitVec.add_assoc]
  rw [key, BitVec.toInt_ofInt]
  have ha := toInt_range hw a
  have hb := toInt_range hw b
  have hpow := two_pow_pred hw
  have hM : (0 : Int) < 2 ^ (w - 1) := by positivity
  have hupper : a.toInt * b.toInt / 2 ^ w < 2 ^ (w - 1) := by
    rw [Int.ediv_lt_iff_lt_mul (by positivity), hpow]
    nlinarith
  have hlower : -2 ^ (w - 1) ≤ a.toInt * b.toInt / 2 ^ w := by
    rw [Int.le_ediv_iff_mul_le (by positivity), hpow]
    nlinarith
  generalize a.toInt * b.toInt / 2 ^ w = high at hupper hlower ⊢
  apply Int.bmod_eq_of_le <;> push_cast <;> rw [hpow] <;> omega

end Product

/-! ## Truncated division -/

/-- A quotient and a remainder with the dividend's sign, smaller than the
divisor, are those of truncated division. -/
theorem tdiv_tmod_of_eq {a d q s : Int} (hd : d ≠ 0) (hsum : q * d + s = a) (hs : s.natAbs < d.natAbs)
    (hpos : 0 ≤ a → 0 ≤ s) (hneg : a < 0 → s ≤ 0) : a.tdiv d = q ∧ a.tmod d = s := by
  by_cases ha : 0 ≤ a
  · refine (Int.tdiv_tmod_unique ha hd).mpr ⟨by linarith, hpos ha, ?_⟩
    have := hpos ha
    omega
  · refine (Int.tdiv_tmod_unique' (by omega) hd).mpr ⟨by linarith, ?_, hneg (by omega)⟩
    have := hneg (by omega)
    omega

section Division

variable {w : Nat} {a d q r : BitVec w}

/-- The remainder of magnitude `r` with the sign of the dividend `a`. -/
def signedRemainder (a r : BitVec w) : BitVec w := if a.msb then -r else r

theorem abs_toNat_le (hw : 0 < w) (d : BitVec w) :
    (d.abs.toNat : Int) = d.toInt.natAbs ∧ (d.abs.toNat : Int) ≤ 2 ^ (w - 1) := by
  have hd := toInt_range hw d
  have hlt := d.isLt
  have hpow := two_pow_pred hw
  have hnat : ((2 ^ w : Nat) : Int) = 2 ^ w := by push_cast; rfl
  rw [BitVec.toNat_abs, BitVec.msb_eq_toInt]
  by_cases hneg : d.toInt < 0
  · have hcast : d.toInt = d.toNat - 2 ^ w := by
      rw [BitVec.toInt_eq_toNat_cond, hnat] at hneg ⊢
      split at hneg <;> split <;> omega
    rw [if_pos (by simpa using hneg), Nat.cast_sub hlt.le, hnat]
    omega
  · have hcast : d.toInt = d.toNat := by
      rw [BitVec.toInt_eq_toNat_cond, hnat] at hneg ⊢
      split at hneg <;> split <;> omega
    rw [if_neg (by simpa using hneg)]
    omega

theorem abs_ne_zero (hw : 0 < w) (hd : d ≠ 0) : d.abs ≠ 0 := by
  obtain ⟨habs, -⟩ := abs_toNat_le hw d
  intro h
  have hzero : d.abs.toNat = 0 := by rw [h]; exact BitVec.toNat_zero
  have hdzero : d.toInt = 0 := by omega
  exact hd (BitVec.toInt_inj.mp (by simpa using hdzero))

/-- A remainder below the divisor's magnitude has the value of its sign. -/
theorem signedRemainder_toInt (hw : 0 < w) (hr : r < d.abs) :
    (signedRemainder a r).toInt = if a.msb then -(r.toNat : Int) else r.toNat := by
  obtain ⟨-, hle⟩ := abs_toNat_le hw d
  have hrlt : (r.toNat : Int) < 2 ^ (w - 1) := by
    have : r.toNat < d.abs.toNat := hr
    omega
  have hpow := two_pow_pred hw
  have hcast : r.toInt = r.toNat := by
    refine BitVec.toInt_eq_toNat_of_lt ?_
    zify
    rw [hpow]
    linarith
  simp only [signedRemainder]
  split
  · rw [BitVec.toInt_neg, hcast]
    apply Int.bmod_eq_of_le <;> push_cast <;> rw [hpow] <;> omega
  · exact hcast

/-- The integer sum of a quotient's product and a signed remainder does not
wrap: the remainder never leads away from zero past the dividend. -/
theorem sum_toInt (hw : 0 < w) (hr : r < d.abs) {p : BitVec w} (hsum : p + signedRemainder a r = a) :
    p.toInt + (signedRemainder a r).toInt = a.toInt := by
  have hp := toInt_range hw p
  have ha := toInt_range hw a
  obtain ⟨-, hle⟩ := abs_toNat_le hw d
  have hrlt : (r.toNat : Int) < 2 ^ (w - 1) := by
    have : r.toNat < d.abs.toNat := hr
    omega
  have hs := signedRemainder_toInt (a := a) hw hr
  have hsign : a.msb = decide (a.toInt < 0) := BitVec.msb_eq_toInt
  obtain ⟨k, hk⟩ : ∃ k : Int, p.toInt + (signedRemainder a r).toInt = a.toInt + 2 ^ w * k := by
    have h := congrArg BitVec.toInt hsum
    rw [BitVec.toInt_add, Int.bmod_eq_self_sub_mul_bdiv] at h
    push_cast at h
    exact ⟨_, sub_eq_iff_eq_add.mp h⟩
  rw [two_pow_pred hw] at hk
  generalize (2 : Int) ^ (w - 1) = M at *
  have hM : 0 < M := by omega
  have hrange : -(2 * M) < 2 * M * k ∧ 2 * M * k < 2 * M := by
    rw [hs, hsign] at hk
    by_cases hneg : a.toInt < 0
    · rw [if_pos (by simpa using hneg)] at hk
      omega
    · rw [if_neg (by simpa using hneg)] at hk
      omega
  have hzero : k = 0 := by
    obtain ⟨hlo, hhi⟩ := hrange
    have hlt : k < 1 := by nlinarith
    have hgt : -1 < k := by nlinarith
    omega
  rw [hk, hzero, mul_zero, add_zero]

/-- What the checks on an advised quotient and remainder establish: no
overflow in the product, the sum and the range of the remainder. -/
theorem truncated_of_checks (hw : 0 < w) (hd : d ≠ 0) (hmul : (q * d).toInt = q.toInt * d.toInt)
    (hsum : q * d + signedRemainder a r = a) (hr : r < d.abs) :
    a.toInt.tdiv d.toInt = q.toInt ∧ a.toInt.tmod d.toInt = (signedRemainder a r).toInt := by
  have hint := sum_toInt hw hr hsum
  have hs := signedRemainder_toInt (a := a) hw hr
  have hsign : a.msb = decide (a.toInt < 0) := BitVec.msb_eq_toInt
  have hrlt : r.toNat < d.abs.toNat := hr
  obtain ⟨habs, -⟩ := abs_toNat_le hw d
  have hd0 : d.toInt ≠ 0 := fun h => hd (BitVec.toInt_inj.mp (by simpa using h))
  refine tdiv_tmod_of_eq hd0 (by rw [← hmul, hint]) ?_ ?_ ?_
  · rw [hs]
    split <;> omega
  · intro ha
    rw [hs, hsign, if_neg (by simpa using ha)]
    omega
  · intro ha
    rw [hs, hsign, if_pos (by simpa using ha)]
    omega

theorem sdiv_of_checks (hw : 0 < w) (hd : d ≠ 0) (hmin : a ≠ BitVec.intMin w ∨ d ≠ -1)
    (hmul : (q * d).toInt = q.toInt * d.toInt) (hsum : q * d + signedRemainder a r = a)
    (hr : r < d.abs) : a.sdiv d = q := by
  refine BitVec.toInt_inj.mp ?_
  rw [BitVec.toInt_sdiv_of_ne_or_ne a d hmin]
  exact (truncated_of_checks hw hd hmul hsum hr).1

theorem srem_of_checks (hw : 0 < w) (hd : d ≠ 0) (hmul : (q * d).toInt = q.toInt * d.toInt)
    (hsum : q * d + signedRemainder a r = a) (hr : r < d.abs) :
    a.srem d = signedRemainder a r := by
  refine BitVec.toInt_inj.mp ?_
  rw [BitVec.toInt_srem]
  exact (truncated_of_checks hw hd hmul hsum hr).2

/-! The quotient and the remainder of the division pass the checks. -/

theorem signedRemainder_abs_srem (a d : BitVec w) :
    signedRemainder a (a.srem d).abs = a.srem d := by
  have hsrem : (a.srem d).toInt = a.toInt.tmod d.toInt := BitVec.toInt_srem a d
  have hmsb : (a.srem d).msb = decide (a.toInt.tmod d.toInt < 0) := by
    rw [BitVec.msb_eq_toInt, hsrem]
  simp only [signedRemainder, BitVec.abs, hmsb]
  have hneg : a.msb = decide (a.toInt < 0) := BitVec.msb_eq_toInt
  rcases lt_or_ge a.toInt 0 with hlt | hge
  · rw [if_pos (by simpa [hneg] using hlt)]
    rcases lt_trichotomy (a.toInt.tmod d.toInt) 0 with hm | hm | hm
    · rw [if_pos (by simpa using hm)]
      exact neg_neg (a.srem d)
    · have hzero : a.srem d = 0 := BitVec.toInt_inj.mp (by rw [hsrem, hm]; exact BitVec.toInt_zero.symm)
      simp [hzero]
    · have := Int.tmod_nonneg d.toInt (show 0 ≤ -a.toInt by omega)
      rw [Int.neg_tmod] at this
      omega
  · have hm := Int.tmod_nonneg d.toInt hge
    rw [if_neg (by simpa [hneg] using hge), if_neg (by simpa using hm)]

theorem abs_srem_lt (hw : 0 < w) (hd : d ≠ 0) : (a.srem d).abs < d.abs := by
  obtain ⟨hrem, -⟩ := abs_toNat_le hw (a.srem d)
  obtain ⟨hdiv, -⟩ := abs_toNat_le hw d
  have hd0 : d.toInt ≠ 0 := fun h => hd (BitVec.toInt_inj.mp (by simpa using h))
  rw [BitVec.toInt_srem, Int.natAbs_tmod] at hrem
  have hlt := Nat.mod_lt a.toInt.natAbs (show 0 < d.toInt.natAbs by omega)
  refine BitVec.lt_def.mpr ?_
  omega

theorem sdiv_mul_toInt (hw : 0 < w) (hmin : a ≠ BitVec.intMin w ∨ d ≠ -1) :
    (a.sdiv d * d).toInt = (a.sdiv d).toInt * d.toInt := by
  have ha := toInt_range hw a
  have hpow := two_pow_pred hw
  have hsplit := Int.mul_tdiv_add_tmod a.toInt d.toInt
  have hmod : (a.toInt.tmod d.toInt).natAbs ≤ a.toInt.natAbs := by
    rw [Int.natAbs_tmod]
    exact Nat.mod_le _ _
  have hsign : (0 ≤ a.toInt → 0 ≤ a.toInt.tmod d.toInt) ∧ (a.toInt ≤ 0 → a.toInt.tmod d.toInt ≤ 0) := by
    refine ⟨fun h => Int.tmod_nonneg _ h, fun h => ?_⟩
    have := Int.tmod_nonneg d.toInt (show 0 ≤ -a.toInt by omega)
    rw [Int.neg_tmod] at this
    omega
  rw [BitVec.toInt_mul, BitVec.toInt_sdiv_of_ne_or_ne a d hmin, mul_comm]
  generalize d.toInt * a.toInt.tdiv d.toInt = P at *
  apply Int.bmod_eq_of_le <;> push_cast <;> rw [hpow] <;> omega

theorem sdiv_mul_add_srem (hw : 0 < w) (hmin : a ≠ BitVec.intMin w ∨ d ≠ -1) :
    a.sdiv d * d + a.srem d = a := by
  refine BitVec.toInt_inj.mp ?_
  rw [BitVec.toInt_add, sdiv_mul_toInt hw hmin, BitVec.toInt_sdiv_of_ne_or_ne a d hmin,
    BitVec.toInt_srem, mul_comm, Int.mul_tdiv_add_tmod, BitVec.toInt_bmod_cancel]

end Division

end LightningJolt
