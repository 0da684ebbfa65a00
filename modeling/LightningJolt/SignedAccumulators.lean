/-
The signed accumulators of products (`jolt-core/src/utils/accumulation.rs`), over slots that put
their carries off (`jolt-core/src/field/folded_accum.rs`): which sums their limbs can hold.
-/
import LightningJolt.ExtendedProducts
import LightningJolt.ProductSum

namespace LightningJolt

/-! ## Limbs -/

/-- The integer of 64-bit limbs, or of slots at their places, the lowest first. -/
def limbsValue {w : Nat} (xs : List (BitVec w)) : Nat := Nat.ofDigits (2 ^ 64) (xs.map BitVec.toNat)

/-- `BigInt` of `n` limbs. -/
def bigInt : Nat → Nat → List U64
  | 0, _ => []
  | n + 1, x => BitVec.ofNat 64 x :: bigInt n (x / 2 ^ 64)

section Limbs

variable {w : Nat} {n x : Nat}

@[simp] theorem limbsValue_nil : limbsValue ([] : List (BitVec w)) = 0 := rfl

@[simp] theorem limbsValue_cons (a : BitVec w) (xs : List (BitVec w)) :
    limbsValue (a :: xs) = a.toNat + 2 ^ 64 * limbsValue xs := by
  rw [limbsValue, List.map_cons, Nat.ofDigits_cons, limbsValue]

theorem limbsValue_lt {xs : List (BitVec w)} (h : ∀ a ∈ xs, a.toNat < 2 ^ 64) :
    limbsValue xs < 2 ^ (64 * xs.length) := by
  have hlt := Nat.ofDigits_lt_base_pow_length (b := 2 ^ 64) (l := xs.map BitVec.toNat) (by decide)
    (by simpa using h)
  rwa [List.length_map, ← pow_mul] at hlt

theorem limbsValue_setWidth (xs : List U64) : limbsValue (xs.map (·.setWidth 128)) = limbsValue xs := by
  have hmap : (xs.map (·.setWidth 128)).map BitVec.toNat = xs.map BitVec.toNat := by
    rw [List.map_map]
    exact List.map_congr_left fun a _ => BitVec.toNat_setWidth_of_le (by decide)
  rw [limbsValue, hmap, limbsValue]

@[simp] theorem length_bigInt : (bigInt n x).length = n := by
  induction n generalizing x with
  | zero => rfl
  | succ n ih => rw [bigInt, List.length_cons, ih]

theorem limbsValue_bigInt : limbsValue (bigInt n x) = x % 2 ^ (64 * n) := by
  induction n generalizing x with
  | zero => rw [bigInt, limbsValue_nil, Nat.mul_zero, pow_zero, Nat.mod_one]
  | succ n ih =>
    rw [bigInt, limbsValue_cons, ih, BitVec.toNat_ofNat, Nat.mul_succ, Nat.add_comm (64 * n), pow_add, Nat.mod_mul]

end Limbs

/-! ## Slots -/

namespace Folded

/-- `from_bigint`, into as many slots as there are limbs. -/
def fromBigint (limbs : List U64) : List U128 := limbs.map (·.setWidth 128)

/-- The loop of `normalize`; the carry past the last slot is dropped. -/
def normalizeFrom (carry : U128) : List U128 → List U64
  | [] => []
  | slot :: slots =>
    let sum := slot + carry
    let overflow : U128 := if slot.toNat + carry.toNat < 2 ^ 128 then 0 else 1
    sum.setWidth 64 :: normalizeFrom ((sum >>> 64) + (overflow <<< 64)) slots

def normalize (slots : List U128) : List U64 := normalizeFrom 0 slots

/-- `cmp` of the limbs: the highest that differ decide. -/
def cmpLimbs : List U64 → List U64 → Ordering
  | a :: as, b :: bs => (cmpLimbs as bs).then (compare a.toNat b.toNat)
  | _, _ => .eq

/-- `>=`. -/
def ge (lhs rhs : List U128) : Bool := cmpLimbs (normalize lhs) (normalize rhs) != .lt

/-- The loop of `sub`; the borrow past the last limb is dropped. -/
def subFrom (borrow : Int) : List U64 → List U64 → List U128
  | a :: as, b :: bs =>
    let d := (a.toNat : Int) - b.toNat + borrow
    (BitVec.ofInt 64 d).setWidth 128 :: subFrom (d / 2 ^ 64) as bs
  | _, _ => []

def sub (lhs rhs : List U128) : List U128 := subFrom 0 (normalize lhs) (normalize rhs)

/-- `add_assign`, of as many slots or of fewer. -/
def addAssign : List U128 → List U128 → List U128
  | x :: xs, y :: ys => (x + y) :: addAssign xs ys
  | xs, _ => xs

/-! ### Their values -/

/-- The low limb of a sum, and what it carries to the others. -/
theorem mod_cons (x v k : Nat) :
    (x + 2 ^ 64 * v) % 2 ^ (64 * (k + 1)) = x % 2 ^ 64 + 2 ^ 64 * ((v + x / 2 ^ 64) % 2 ^ (64 * k)) := by
  rw [Nat.mul_succ, Nat.add_comm (64 * k), pow_add, Nat.mod_mul, Nat.add_mul_mod_self_left,
    Nat.add_mul_div_left _ _ (by decide), Nat.add_comm v]

theorem toNat_carry {slot carry : U128} (h : carry.toNat ≤ 2 ^ 64) :
    (((slot + carry) >>> 64) + ((if slot.toNat + carry.toNat < 2 ^ 128 then 0 else 1 : U128) <<< 64)).toNat =
      (slot.toNat + carry.toNat) / 2 ^ 64 := by
  have hslot := slot.isLt
  split_ifs with hfits
  · have hzero : (0 : U128) <<< 64 = 0 := rfl
    rw [hzero, add_zero, BitVec.toNat_ushiftRight, BitVec.toNat_add, Nat.mod_eq_of_lt hfits,
      Nat.shiftRight_eq_div_pow]
  · have hone : ((1 : U128) <<< 64).toNat = 2 ^ 64 := rfl
    rw [BitVec.toNat_add, hone, BitVec.toNat_ushiftRight, BitVec.toNat_add, Nat.shiftRight_eq_div_pow]
    omega

/-- **Normalizing keeps the value** but for what does not fit the limbs. -/
theorem limbsValue_normalizeFrom {carry : U128} (slots : List U128) (h : carry.toNat ≤ 2 ^ 64) :
    limbsValue (normalizeFrom carry slots) = (limbsValue slots + carry.toNat) % 2 ^ (64 * slots.length) := by
  induction slots generalizing carry with
  | nil => rw [normalizeFrom, limbsValue_nil, List.length_nil, Nat.mul_zero, pow_zero, Nat.mod_one]
  | cons slot slots ih =>
    have hslot := slot.isLt
    have hcarry := @toNat_carry slot carry h
    have hsum : (slot + carry).toNat % 2 ^ 64 = (slot.toNat + carry.toNat) % 2 ^ 64 := by
      rw [BitVec.toNat_add]
      omega
    rw [normalizeFrom, limbsValue_cons, ih (by rw [hcarry]; omega), hcarry, BitVec.toNat_setWidth, hsum, limbsValue_cons,
      List.length_cons, Nat.add_right_comm, mod_cons]

theorem length_normalizeFrom {carry : U128} (slots : List U128) : (normalizeFrom carry slots).length = slots.length := by
  induction slots generalizing carry with
  | nil => rfl
  | cons slot slots ih => rw [normalizeFrom, List.length_cons, ih, List.length_cons]

theorem limbsValue_normalize (slots : List U128) :
    limbsValue (normalize slots) = limbsValue slots % 2 ^ (64 * slots.length) :=
  limbsValue_normalizeFrom slots (Nat.zero_le _)

theorem length_normalize (slots : List U128) : (normalize slots).length = slots.length := length_normalizeFrom slots

/-- Limbs are compared as the integers they hold. -/
theorem cmpLimbs_eq {as bs : List U64} (h : as.length = bs.length) :
    cmpLimbs as bs = compare (limbsValue as) (limbsValue bs) := by
  induction as generalizing bs with
  | nil =>
    obtain rfl := List.length_eq_zero_iff.mp h.symm
    rfl
  | cons a as ih =>
    obtain ⟨b, bs, rfl⟩ := List.exists_cons_of_length_eq_add_one h.symm
    have ha := a.isLt
    have hb := b.isLt
    rw [cmpLimbs, ih (Nat.succ.inj h), limbsValue_cons, limbsValue_cons]
    rcases lt_trichotomy (limbsValue as) (limbsValue bs) with hlt | heq | hgt
    · rw [compare_lt_iff_lt.mpr hlt, eq_comm]
      exact compare_lt_iff_lt.mpr (by omega)
    · rw [heq, compare_eq_iff_eq.mpr rfl, Ordering.then]
      rcases lt_trichotomy a.toNat b.toNat with h | h | h
      · rw [compare_lt_iff_lt.mpr h, compare_lt_iff_lt.mpr (by omega)]
      · rw [h, compare_eq_iff_eq.mpr rfl, compare_eq_iff_eq.mpr rfl]
      · rw [compare_gt_iff_gt.mpr h, compare_gt_iff_gt.mpr (by omega)]
    · rw [compare_gt_iff_gt.mpr hgt, eq_comm]
      exact compare_gt_iff_gt.mpr (by omega)

/-- The low limb of a difference, and what it borrows from the others. -/
theorem emod_cons (x v : Int) (k : Nat) :
    (x + 2 ^ 64 * v) % 2 ^ (64 * (k + 1)) = x % 2 ^ 64 + 2 ^ 64 * ((v + x / 2 ^ 64) % 2 ^ (64 * k)) := by
  have hlow := Int.emod_lt_of_pos x (show (0 : Int) < 2 ^ 64 by decide)
  have hlow' := Int.emod_nonneg x (show (2 : Int) ^ 64 ≠ 0 by decide)
  have hpos : (0 : Int) < 2 ^ (64 * k) := by positivity
  have hhigh := Int.emod_lt_of_pos (v + x / 2 ^ 64) hpos
  have hhigh' := Int.emod_nonneg (v + x / 2 ^ 64) hpos.ne'
  have hpow : (2 : Int) ^ (64 * (k + 1)) = 2 ^ 64 * 2 ^ (64 * k) := by rw [Nat.mul_succ, pow_add, mul_comm]
  have hsplit : x + 2 ^ 64 * v = x % 2 ^ 64 + 2 ^ 64 * ((v + x / 2 ^ 64) % 2 ^ (64 * k)) +
      2 ^ (64 * (k + 1)) * ((v + x / 2 ^ 64) / 2 ^ (64 * k)) := by
    have hx := Int.emod_add_mul_ediv x (2 ^ 64)
    have hv := Int.emod_add_mul_ediv (v + x / 2 ^ 64) (2 ^ (64 * k))
    rw [hpow]
    linear_combination (-1) * hx - 2 ^ 64 * hv
  rw [hsplit, Int.add_mul_emod_self_left]
  refine Int.emod_eq_of_lt (by positivity) ?_
  rw [hpow]
  calc x % 2 ^ 64 + 2 ^ 64 * ((v + x / 2 ^ 64) % 2 ^ (64 * k))
      < 2 ^ 64 + 2 ^ 64 * ((v + x / 2 ^ 64) % 2 ^ (64 * k)) := by omega
    _ = 2 ^ 64 * ((v + x / 2 ^ 64) % 2 ^ (64 * k) + 1) := by ring
    _ ≤ 2 ^ 64 * 2 ^ (64 * k) := Int.mul_le_mul_of_nonneg_left hhigh (by decide)

/-- A difference with what is borrowed for it, cut to the limbs. -/
theorem limbsValue_subFrom {as bs : List U64} (borrow : Int) (h : as.length = bs.length) :
    (limbsValue (subFrom borrow as bs) : Int) =
      ((limbsValue as : Int) - limbsValue bs + borrow) % 2 ^ (64 * as.length) := by
  induction as generalizing bs borrow with
  | nil =>
    obtain rfl := List.length_eq_zero_iff.mp h.symm
    rw [show subFrom borrow [] [] = [] from rfl, limbsValue_nil, List.length_nil, Nat.mul_zero, pow_zero, Int.emod_one]
    rfl
  | cons a as ih =>
    obtain ⟨b, bs, rfl⟩ := List.exists_cons_of_length_eq_add_one h.symm
    have hlow : ((((BitVec.ofInt 64 ((a.toNat : Int) - b.toNat + borrow)).setWidth 128 : U128).toNat : Nat) : Int) =
        ((a.toNat : Int) - b.toNat + borrow) % 2 ^ 64 := by
      rw [BitVec.toNat_setWidth_of_le (by decide), BitVec.toNat_ofInt]
      exact Int.toNat_of_nonneg (Int.emod_nonneg _ (by decide))
    have hsplit : (a.toNat : Int) + 2 ^ 64 * limbsValue as - (b.toNat + 2 ^ 64 * limbsValue bs) + borrow =
        (a.toNat - b.toNat + borrow) + 2 ^ 64 * (limbsValue as - limbsValue bs) := by ring
    simp only [subFrom, limbsValue_cons, Nat.cast_add, Nat.cast_mul, Nat.cast_pow, Nat.cast_ofNat, List.length_cons]
    rw [ih _ (Nat.succ.inj h), hlow, hsplit, emod_cons]

theorem length_subFrom {as bs : List U64} (borrow : Int) (h : as.length = bs.length) :
    (subFrom borrow as bs).length = as.length := by
  induction as generalizing bs borrow with
  | nil =>
    obtain rfl := List.length_eq_zero_iff.mp h.symm
    rfl
  | cons a as ih =>
    obtain ⟨b, bs, rfl⟩ := List.exists_cons_of_length_eq_add_one h.symm
    rw [subFrom, List.length_cons, ih _ (Nat.succ.inj h), List.length_cons]

/-- **A difference of what the limbs hold** is exact where the second is no greater. -/
theorem limbsValue_sub {xs ys : List U128} (hlen : xs.length = ys.length)
    (hle : limbsValue (normalize ys) ≤ limbsValue (normalize xs)) :
    limbsValue (normalize (sub xs ys)) = limbsValue (normalize xs) - limbsValue (normalize ys) := by
  have hlength : (normalize xs).length = (normalize ys).length := by rw [length_normalize, length_normalize, hlen]
  have hsub := limbsValue_subFrom 0 hlength
  have hlt : limbsValue (normalize xs) < 2 ^ (64 * (normalize xs).length) := limbsValue_lt fun a _ => a.isLt
  have hdiff : (limbsValue (normalize xs) : Int) - limbsValue (normalize ys) + 0 =
      ((limbsValue (normalize xs) - limbsValue (normalize ys) : Nat) : Int) := by omega
  have hpow : (2 : Int) ^ (64 * (normalize xs).length) = ((2 ^ (64 * (normalize xs).length) : Nat) : Int) := by
    rw [Nat.cast_pow, Nat.cast_ofNat]
  rw [hdiff, hpow, ← Int.natCast_mod, Nat.mod_eq_of_lt (by omega)] at hsub
  rw [limbsValue_normalize, sub, length_subFrom 0 hlength, Int.ofNat.inj hsub, Nat.mod_eq_of_lt (by omega)]

theorem addAssign_nil (xs : List U128) : addAssign xs [] = xs := by cases xs <;> rfl

/-- Adding slots that no carry leaves. -/
theorem limbsValue_addAssign {bound : Nat} (hbound : bound + 2 ^ 64 ≤ 2 ^ 128) {xs ys : List U128}
    (hlen : ys.length ≤ xs.length) (hxs : ∀ x ∈ xs, x.toNat ≤ bound) (hys : ∀ y ∈ ys, y.toNat < 2 ^ 64) :
    (addAssign xs ys).length = xs.length ∧ limbsValue (addAssign xs ys) = limbsValue xs + limbsValue ys ∧
      ∀ x ∈ addAssign xs ys, x.toNat ≤ bound + (2 ^ 64 - 1) := by
  induction xs generalizing ys with
  | nil =>
    obtain rfl := List.length_eq_zero_iff.mp (Nat.le_zero.mp hlen)
    exact ⟨rfl, rfl, fun x hx => absurd hx (List.not_mem_nil)⟩
  | cons x xs ih =>
    cases ys with
    | nil => exact ⟨rfl, rfl, fun a ha => (hxs a ha).trans (Nat.le_add_right _ _)⟩
    | cons y ys =>
      obtain ⟨hlength, hvalue, hmem⟩ := ih (Nat.le_of_succ_le_succ hlen) (fun a ha => hxs a (List.mem_cons_of_mem _ ha))
        fun a ha => hys a (List.mem_cons_of_mem _ ha)
      have hx := hxs x (List.mem_cons_self ..)
      have hy := hys y (List.mem_cons_self ..)
      have hsum : (x + y).toNat = x.toNat + y.toNat := by
        rw [BitVec.toNat_add]
        exact Nat.mod_eq_of_lt (by omega)
      refine ⟨by rw [addAssign, List.length_cons, hlength, List.length_cons], ?_, fun a ha => ?_⟩
      · rw [addAssign, limbsValue_cons, hvalue, hsum, limbsValue_cons, limbsValue_cons]
        ring
      · rw [addAssign, List.mem_cons] at ha
        rcases ha with rfl | ha
        · omega
        · exact hmem a ha

end Folded

/-! ## Products and reductions (`jolt-core/src/field/ark.rs`) -/

/-- The truncated product and the Barrett reduction, which the field's library defines, with what
these are documented to be. -/
structure BarrettForm extends MontgomeryForm where
  /-- `mul_trunc`, to the number of limbs that comes first. -/
  mulTrunc : Nat → Nat → Nat → List U64
  /-- `from_barrett_reduce`: the element whose form is the integer modulo the order. -/
  fromBarrettReduce : List U64 → Fr
  form_lt : ∀ a, form a < scalarModulus
  mulTrunc_eq : ∀ limbs x y, mulTrunc limbs x y = bigInt limbs (x * y)
  barrett_eq : ∀ x, fromBarrettReduce x = (limbsValue x : Fr) * montgomeryR⁻¹

namespace BarrettForm

variable (m : BarrettForm)

/-- `to_unreduced`. -/
def elem (a : Fr) : List U128 := Folded.fromBigint (bigInt 4 (m.form a))

def mulU64Unreduced (a : Fr) (x : U64) : List U128 := Folded.fromBigint (m.mulTrunc 5 (m.form a) x.toNat)

def mulU128Unreduced (a : Fr) (x : U128) : List U128 := Folded.fromBigint (m.mulTrunc 6 (m.form a) x.toNat)

def mulToAccumMag (a : Fr) (mag : Nat) : List U128 := Folded.fromBigint (m.mulTrunc 7 (m.form a) mag)

def mulToProductMag (a : Fr) (mag : Nat) : List U128 := Folded.fromBigint (m.mulTrunc 8 (m.form a) mag)

/-- `reduce_mul_u64`, `reduce_mul_u128` and `reduce_mul_u128_accum`, by the number of slots. -/
def barrett (x : List U128) : Fr := m.fromBarrettReduce (Folded.normalize x)

def reduceProduct (x : List U128) : Fr := m.fromMontgomeryReduce (limbsValue (Folded.normalize x))

end BarrettForm

/-! ## The accumulators -/

/-- The unreduced sums of the positive products and of the negative ones. -/
structure AccumS where
  pos : List U128
  neg : List U128

namespace AccumS

variable (m : BarrettForm) (acc : AccumS) (field : Fr)

/-- `zero`, of `n` slots each. -/
def zero (n : Nat) : AccumS := ⟨List.replicate n 0, List.replicate n 0⟩

/-- A term added to the sum of its sign. -/
def add (positive : Bool) (term : List U128) : AccumS :=
  if positive then { acc with pos := Folded.addAssign acc.pos term }
  else { acc with neg := Folded.addAssign acc.neg term }

def fmaddBool (other : Bool) : AccumS := if other then acc.add true (m.elem field) else acc

def fmaddU64 (other : U64) : AccumS := if other = 0 then acc else acc.add true (m.mulU64Unreduced field other)

def fmaddU8 (other : BitVec 8) : AccumS := fmaddU64 m acc field (other.setWidth 64)

def fmaddI64 (other : BitVec 64) : AccumS :=
  if other = 0 then acc
  else acc.add (0 < other.toInt) (m.mulU64Unreduced field (BitVec.ofNat 64 other.toInt.natAbs))

def fmaddI128 (other : BitVec 128) : AccumS :=
  if other = 0 then acc
  else acc.add (0 < other.toInt) (m.mulU128Unreduced field (BitVec.ofNat 128 other.toInt.natAbs))

def fmaddS64 (other : S64) : AccumS :=
  if other.magnitude = 0 then acc else acc.add other.isPositive (m.mulU64Unreduced field other.magnitude)

def fmaddS128 (other : S128) : AccumS :=
  if other.magnitude = 0 then acc else acc.add other.isPositive (m.mulU128Unreduced field other.magnitude)

/-- `fmadd` of the wide accumulator with a `S160` or a `S192`. -/
def fmaddAccumMag {w : Nat} (other : SignedMagnitude w) : AccumS :=
  if other.magnitude = 0 then acc else acc.add other.isPositive (m.mulToAccumMag field other.magnitude.toNat)

/-- `fmadd` of the full accumulator with a `S192` or a `S256`. -/
def fmaddProductMag {w : Nat} (other : SignedMagnitude w) : AccumS :=
  if other.magnitude = 0 then acc else acc.add other.isPositive (m.mulToProductMag field other.magnitude.toNat)

/-- The reduction of the greater sum less the other, with its sign. -/
def reduce (reduction : List U128 → Fr) : Fr :=
  if Folded.ge acc.pos acc.neg then reduction (Folded.sub acc.pos acc.neg)
  else -reduction (Folded.sub acc.neg acc.pos)

end AccumS

/-- `SmallAccumS`. -/
inductive SmallOperand where
  | bool (other : Bool)
  | u8 (other : BitVec 8)
  | u64 (other : U64)
  | i64 (other : BitVec 64)

/-- `MedAccumS`. -/
inductive MedOperand where
  | i128 (other : BitVec 128)
  | bool (other : Bool)
  | u8 (other : BitVec 8)
  | u64 (other : U64)
  | s64 (other : S64)

/-- `WideAccumS`. -/
inductive WideOperand where
  | i128 (other : BitVec 128)
  | s64 (other : S64)
  | s128 (other : S128)
  | s160 (other : S160)
  | s192 (other : S192)

/-- `FullAccumS`. -/
inductive FullOperand where
  | s128 (other : S128)
  | s192 (other : S192)
  | s256 (other : S256)

section Tiers

variable (m : BarrettForm)

def SmallOperand.toInt : SmallOperand → Int
  | .bool other => other.toNat
  | .u8 other => other.toNat
  | .u64 other => other.toNat
  | .i64 other => other.toInt

def MedOperand.toInt : MedOperand → Int
  | .i128 other => other.toInt
  | .bool other => other.toNat
  | .u8 other => other.toNat
  | .u64 other => other.toNat
  | .s64 other => other.toInt

def WideOperand.toInt : WideOperand → Int
  | .i128 other => other.toInt
  | .s64 other => other.toInt
  | .s128 other => other.toInt
  | .s160 other => other.toInt
  | .s192 other => other.toInt

def FullOperand.toInt : FullOperand → Int
  | .s128 other => other.toInt
  | .s192 other => other.toInt
  | .s256 other => other.toInt

def smallFmadd (acc : AccumS) (field : Fr) : SmallOperand → AccumS
  | .bool other => acc.fmaddBool m field other
  | .u8 other => acc.fmaddU8 m field other
  | .u64 other => acc.fmaddU64 m field other
  | .i64 other => acc.fmaddI64 m field other

def medFmadd (acc : AccumS) (field : Fr) : MedOperand → AccumS
  | .i128 other => acc.fmaddI128 m field other
  | .bool other => acc.fmaddBool m field other
  | .u8 other => acc.fmaddU8 m field other
  | .u64 other => acc.fmaddU64 m field other
  | .s64 other => acc.fmaddS64 m field other

def wideFmadd (acc : AccumS) (field : Fr) : WideOperand → AccumS
  | .i128 other => acc.fmaddI128 m field other
  | .s64 other => acc.fmaddS64 m field other
  | .s128 other => acc.fmaddS128 m field other
  | .s160 other => acc.fmaddAccumMag m field other
  | .s192 other => acc.fmaddAccumMag m field other

def fullFmadd (acc : AccumS) (field : Fr) : FullOperand → AccumS
  | .s128 other => acc.fmaddS128 m field other
  | .s192 other => acc.fmaddProductMag m field other
  | .s256 other => acc.fmaddProductMag m field other

/-- The accumulator, of `n` slots, after a list of operations. -/
def accumulateOps {O : Type} (fmadd : AccumS → Fr → O → AccumS) (n : Nat) (ops : List (Fr × O)) : AccumS :=
  ops.foldl (fun acc op => fmadd acc op.1 op.2) (AccumS.zero n)

/-- `barrett_reduce` of a `SmallAccumS`. -/
def smallReduce (ops : List (Fr × SmallOperand)) : Fr := (accumulateOps (smallFmadd m) 5 ops).reduce m.barrett

/-- `barrett_reduce` of a `MedAccumS`. -/
def medReduce (ops : List (Fr × MedOperand)) : Fr := (accumulateOps (medFmadd m) 6 ops).reduce m.barrett

/-- `barrett_reduce` of a `WideAccumS`. -/
def wideReduce (ops : List (Fr × WideOperand)) : Fr := (accumulateOps (wideFmadd m) 7 ops).reduce m.barrett

/-- `montgomery_reduce` of a `FullAccumS`. -/
def fullReduce (ops : List (Fr × FullOperand)) : Fr := (accumulateOps (fullFmadd m) 8 ops).reduce m.reduceProduct

end Tiers

/-! ## What an operation adds -/

section Exact

variable {O : Type} (m : BarrettForm) (toInt : O → Int)

/-- The integer sum of the products of a positive operand. -/
def positivePart (ops : List (Fr × O)) : Nat := (ops.map fun op => m.form op.1 * (toInt op.2).toNat).sum

/-- The integer sum of the products of a negative operand, without its sign. -/
def negativePart (ops : List (Fr × O)) : Nat := (ops.map fun op => m.form op.1 * (-toInt op.2).toNat).sum

/-- The sum of the products in the field. -/
def exactSum (ops : List (Fr × O)) : Fr := (ops.map fun op => op.1 * (toInt op.2 : Fr)).sum

/-- The two sums have the same part past the `n` limbs, none where both fit. -/
def SameExcess (n : Nat) (ops : List (Fr × O)) : Prop :=
  positivePart m toInt ops / 2 ^ (64 * n) = negativePart m toInt ops / 2 ^ (64 * n)

end Exact

section Adds

variable (m : BarrettForm)

/-- A product added to the sum of its sign, in slots that hold a limb each. -/
structure Adds (n : Nat) (a : Fr) (v : Int) (acc acc' : AccumS) : Prop where
  term : ∃ positive term, acc' = acc.add positive term ∧ term.length ≤ n ∧ (∀ x ∈ term, x.toNat < 2 ^ 64) ∧
    limbsValue term = m.form a * v.natAbs ∧ if positive then 0 ≤ v else v ≤ 0

variable {m} {n : Nat} {a : Fr} {acc : AccumS}

theorem adds_zero : Adds m n a 0 acc acc := by
  refine ⟨true, [], ?_, Nat.zero_le _, fun x hx => absurd hx List.not_mem_nil, rfl, le_rfl⟩
  rw [AccumS.add, if_pos rfl, Folded.addAssign_nil]

theorem form_mul_lt {w k x : Nat} (hx : x < 2 ^ w) (hk : 254 + w ≤ k) : m.form a * x < 2 ^ k := by
  have hform : m.form a < 2 ^ 254 := (m.form_lt a).trans (by decide)
  calc m.form a * x < 2 ^ 254 * 2 ^ w := Nat.mul_lt_mul'' hform hx
    _ = 2 ^ (254 + w) := (pow_add ..).symm
    _ ≤ 2 ^ k := Nat.pow_le_pow_right (by decide) hk

/-- A truncated product that loses nothing. -/
theorem adds_product {v : Int} {w p : Nat} {positive : Bool} (hv : v.natAbs < 2 ^ w) (hp : 254 + w ≤ 64 * p)
    (hpn : p ≤ n) (hsign : if positive then 0 ≤ v else v ≤ 0) :
    Adds m n a v acc (acc.add positive (Folded.fromBigint (m.mulTrunc p (m.form a) v.natAbs))) := by
  refine ⟨positive, _, rfl, ?_, fun x hx => ?_, ?_, hsign⟩
  · rw [Folded.fromBigint, List.length_map, m.mulTrunc_eq, length_bigInt]
    exact hpn
  · obtain ⟨limb, -, rfl⟩ := List.mem_map.mp hx
    rw [BitVec.toNat_setWidth_of_le (by decide)]
    exact limb.isLt
  · rw [Folded.fromBigint, limbsValue_setWidth, m.mulTrunc_eq, limbsValue_bigInt, Nat.mod_eq_of_lt (form_mul_lt hv hp)]

theorem fmaddBool_adds (hn : 4 ≤ n) (other : Bool) : Adds m n a other.toNat acc (acc.fmaddBool m a other) := by
  cases other with
  | false => exact adds_zero
  | true =>
    refine ⟨true, m.elem a, rfl, ?_, fun x hx => ?_, ?_, by decide⟩
    · rw [BarrettForm.elem, Folded.fromBigint, List.length_map, length_bigInt]
      exact hn
    · obtain ⟨limb, -, rfl⟩ := List.mem_map.mp hx
      rw [BitVec.toNat_setWidth_of_le (by decide)]
      exact limb.isLt
    · have hfit : m.form a * 1 < 2 ^ (64 * 4) := form_mul_lt (w := 1) (by decide) (by decide)
      rw [BarrettForm.elem, Folded.fromBigint, limbsValue_setWidth, limbsValue_bigInt, Nat.mod_eq_of_lt (by omega)]
      exact (Nat.mul_one _).symm

theorem fmaddU64_adds (hn : 5 ≤ n) (other : U64) : Adds m n a other.toNat acc (acc.fmaddU64 m a other) := by
  rw [AccumS.fmaddU64]
  split_ifs with hzero
  · rw [hzero]
    exact adds_zero
  · exact adds_product (v := other.toNat) (p := 5) other.isLt (by decide) hn (Int.natCast_nonneg _)

theorem fmaddU8_adds (hn : 5 ≤ n) (other : BitVec 8) : Adds m n a other.toNat acc (acc.fmaddU8 m a other) := by
  have hadds := @fmaddU64_adds m n a acc hn (other.setWidth 64)
  rwa [BitVec.toNat_setWidth_of_le (by decide)] at hadds

/-- The magnitude of a signed machine integer, as an unsigned one of the width. -/
theorem toNat_unsignedAbs {w : Nat} (x : BitVec w) : (BitVec.ofNat w x.toInt.natAbs).toNat = x.toInt.natAbs := by
  have hle := BitVec.two_mul_toInt_le (x := x)
  have hge := BitVec.le_two_mul_toInt (x := x)
  rw [BitVec.toNat_ofNat, Nat.mod_eq_of_lt]
  have hpow : ((2 ^ w : Nat) : Int) = 2 ^ w := by rw [Nat.cast_pow, Nat.cast_ofNat]
  omega

/-- A machine integer's sign. -/
theorem sign_toInt {w : Nat} (x : BitVec w) : if decide (0 < x.toInt) then 0 ≤ x.toInt else x.toInt ≤ 0 := by
  by_cases h : 0 < x.toInt
  · rw [if_pos (decide_eq_true h)]
    exact h.le
  · rw [decide_eq_false h]
    exact not_lt.mp h

theorem fmaddI64_adds (hn : 5 ≤ n) (other : BitVec 64) : Adds m n a other.toInt acc (acc.fmaddI64 m a other) := by
  rw [AccumS.fmaddI64]
  split_ifs with hzero
  · rw [hzero]
    exact adds_zero
  · have habs := toNat_unsignedAbs other
    rw [BarrettForm.mulU64Unreduced, habs]
    exact adds_product (w := 64) (habs ▸ BitVec.isLt _) (by decide) hn (sign_toInt other)

theorem fmaddI128_adds (hn : 6 ≤ n) (other : BitVec 128) : Adds m n a other.toInt acc (acc.fmaddI128 m a other) := by
  rw [AccumS.fmaddI128]
  split_ifs with hzero
  · rw [hzero]
    exact adds_zero
  · have habs := toNat_unsignedAbs other
    rw [BarrettForm.mulU128Unreduced, habs]
    exact adds_product (w := 128) (habs ▸ BitVec.isLt _) (by decide) hn (sign_toInt other)

/-- A product with the magnitude of a signed one, added by its sign or skipped where it is zero. -/
theorem signed_adds {w p : Nat} (hp : 254 + w ≤ 64 * p) (hpn : p ≤ n) (other : SignedMagnitude w) :
    Adds m n a other.toInt acc (if other.magnitude = 0 then acc
      else acc.add other.isPositive (Folded.fromBigint (m.mulTrunc p (m.form a) other.magnitude.toNat))) := by
  have hnat := other.natAbs_toInt
  split_ifs with hzero
  · rw [hzero] at hnat
    rw [Int.natAbs_eq_zero.mp hnat]
    exact adds_zero
  · rw [← hnat]
    refine adds_product other.natAbs_toInt_lt hp hpn ?_
    cases h : other.isPositive <;> simp [SignedMagnitude.toInt, h]

theorem smallFmadd_adds (other : SmallOperand) : Adds m 5 a other.toInt acc (smallFmadd m acc a other) := by
  cases other with
  | bool other => exact fmaddBool_adds (by decide) other
  | u8 other => exact fmaddU8_adds le_rfl other
  | u64 other => exact fmaddU64_adds le_rfl other
  | i64 other => exact fmaddI64_adds le_rfl other

theorem medFmadd_adds (other : MedOperand) : Adds m 6 a other.toInt acc (medFmadd m acc a other) := by
  cases other with
  | i128 other => exact fmaddI128_adds le_rfl other
  | bool other => exact fmaddBool_adds (by decide) other
  | u8 other => exact fmaddU8_adds (by decide) other
  | u64 other => exact fmaddU64_adds (by decide) other
  | s64 other => exact signed_adds (p := 5) (by decide) (by decide) other

theorem wideFmadd_adds (other : WideOperand) : Adds m 7 a other.toInt acc (wideFmadd m acc a other) := by
  cases other with
  | i128 other => exact fmaddI128_adds (by decide) other
  | s64 other => exact signed_adds (p := 5) (by decide) (by decide) other
  | s128 other => exact signed_adds (p := 6) (by decide) (by decide) other
  | s160 other => exact signed_adds (p := 7) (by decide) le_rfl other
  | s192 other => exact signed_adds (p := 7) (by decide) le_rfl other

theorem fullFmadd_adds (other : FullOperand) : Adds m 8 a other.toInt acc (fullFmadd m acc a other) := by
  cases other with
  | s128 other => exact signed_adds (p := 6) (by decide) (by decide) other
  | s192 other => exact signed_adds (p := 8) (by decide) le_rfl other
  | s256 other => exact signed_adds (p := 8) (by decide) le_rfl other

end Adds

/-! ## What a run holds -/

/-- After `k` operations: the sums as integers, in slots that `k` limbs fit. -/
structure Holds (n k positive negative : Nat) (acc : AccumS) : Prop where
  lenPos : acc.pos.length = n
  lenNeg : acc.neg.length = n
  slotPos : ∀ x ∈ acc.pos, x.toNat ≤ k * (2 ^ 64 - 1)
  slotNeg : ∀ x ∈ acc.neg, x.toNat ≤ k * (2 ^ 64 - 1)
  valuePos : limbsValue acc.pos = positive
  valueNeg : limbsValue acc.neg = negative

section Run

variable {O : Type} {m : BarrettForm} {toInt : O → Int} {fmadd : AccumS → Fr → O → AccumS} {acc acc' : AccumS}
  {n k positive negative : Nat}

theorem limbsValue_replicate (n : Nat) : limbsValue (List.replicate n (0 : U128)) = 0 := by
  induction n with
  | zero => rfl
  | succ n ih => rw [List.replicate_succ, limbsValue_cons, ih]; rfl

theorem zero_holds (n : Nat) : Holds n 0 0 0 (AccumS.zero n) where
  lenPos := List.length_replicate
  lenNeg := List.length_replicate
  slotPos x hx := by rw [List.eq_of_mem_replicate hx]; exact Nat.zero_le _
  slotNeg x hx := by rw [List.eq_of_mem_replicate hx]; exact Nat.zero_le _
  valuePos := limbsValue_replicate n
  valueNeg := limbsValue_replicate n

/-- **One operation** adds its product to the sum of its sign. -/
theorem Holds.step (h : Holds n k positive negative acc) {a : Fr} {v : Int} (hadds : Adds m n a v acc acc')
    (hk : k + 1 < 2 ^ 64) :
    Holds n (k + 1) (positive + m.form a * v.toNat) (negative + m.form a * (-v).toNat) acc' := by
  obtain ⟨sign, term, rfl, hlen, hterm, hvalue, hsign⟩ := hadds.term
  have hbound : k * (2 ^ 64 - 1) + 2 ^ 64 ≤ 2 ^ 128 := by omega
  have hsucc : (k + 1) * (2 ^ 64 - 1) = k * (2 ^ 64 - 1) + (2 ^ 64 - 1) := Nat.succ_mul ..
  have hle : k * (2 ^ 64 - 1) ≤ (k + 1) * (2 ^ 64 - 1) := Nat.mul_le_mul_right _ (Nat.le_succ k)
  cases sign with
  | true =>
    have hv : 0 ≤ v := hsign
    obtain ⟨hlength, hsum, hslots⟩ := Folded.limbsValue_addAssign hbound (hlen.trans_eq h.lenPos.symm) h.slotPos hterm
    rw [show v.natAbs = v.toNat by omega] at hvalue
    rw [show (-v).toNat = 0 by omega, Nat.mul_zero, Nat.add_zero, AccumS.add, if_pos rfl]
    exact ⟨hlength.trans h.lenPos, h.lenNeg, hsucc ▸ hslots, fun x hx => (h.slotNeg x hx).trans hle,
      by rw [hsum, h.valuePos, hvalue], h.valueNeg⟩
  | false =>
    have hv : v ≤ 0 := by simpa using hsign
    obtain ⟨hlength, hsum, hslots⟩ := Folded.limbsValue_addAssign hbound (hlen.trans_eq h.lenNeg.symm) h.slotNeg hterm
    rw [show v.natAbs = (-v).toNat by omega] at hvalue
    rw [show v.toNat = 0 by omega, Nat.mul_zero, Nat.add_zero, AccumS.add, if_neg (by decide)]
    exact ⟨h.lenPos, hlength.trans h.lenNeg, fun x hx => (h.slotPos x hx).trans hle, hsucc ▸ hslots, h.valuePos,
      by rw [hsum, h.valueNeg, hvalue]⟩

theorem Holds.run (hadds : ∀ acc a o, Adds m n a (toInt o) acc (fmadd acc a o)) (ops : List (Fr × O))
    (h : Holds n k positive negative acc) (hk : k + ops.length < 2 ^ 64) :
    Holds n (k + ops.length) (positive + positivePart m toInt ops) (negative + negativePart m toInt ops)
      (ops.foldl (fun acc op => fmadd acc op.1 op.2) acc) := by
  induction ops generalizing k positive negative acc with
  | nil => exact h
  | cons op ops ih =>
    rw [List.length_cons] at hk
    have hrest := ih (h.step (hadds acc op.1 op.2) (by omega)) (by omega)
    rw [Nat.add_assoc, Nat.add_comm 1, Nat.add_assoc, Nat.add_assoc] at hrest
    rw [List.foldl_cons, List.length_cons]
    exact hrest

/-- **A run holds the two integer sums**, in slots that do not overflow. -/
theorem accumulateOps_holds (hadds : ∀ acc a o, Adds m n a (toInt o) acc (fmadd acc a o)) {ops : List (Fr × O)}
    (hlen : ops.length < 2 ^ 64) :
    Holds n ops.length (positivePart m toInt ops) (negativePart m toInt ops) (accumulateOps fmadd n ops) := by
  have hrun := (zero_holds n).run hadds ops (by omega)
  rwa [Nat.zero_add, Nat.zero_add, Nat.zero_add] at hrun

/-- Slots of `k` limbs hold less than `k` times what the limbs do. -/
theorem limbsValue_le {xs : List U128} (h : ∀ x ∈ xs, x.toNat ≤ k * (2 ^ 64 - 1)) :
    limbsValue xs ≤ k * (2 ^ (64 * xs.length) - 1) := by
  induction xs with
  | nil => exact Nat.zero_le _
  | cons x xs ih =>
    have hx := h x (List.mem_cons_self ..)
    have hxs := ih fun y hy => h y (List.mem_cons_of_mem _ hy)
    obtain ⟨u, hu⟩ : ∃ u, 2 ^ (64 * xs.length) = u + 1 := ⟨_, (Nat.sub_add_cancel (Nat.two_pow_pos _)).symm⟩
    have hpow : 2 ^ (64 * (xs.length + 1)) - 1 = 2 ^ 64 * u + (2 ^ 64 - 1) := by
      rw [Nat.mul_succ, pow_add, hu]
      omega
    rw [hu, Nat.add_sub_cancel] at hxs
    rw [limbsValue_cons, List.length_cons, hpow]
    calc x.toNat + 2 ^ 64 * limbsValue xs ≤ k * (2 ^ 64 - 1) + 2 ^ 64 * (k * u) := by omega
      _ = k * (2 ^ 64 * u + (2 ^ 64 - 1)) := by ring

/-- **The reduction** is of what the limbs hold of the two sums. -/
theorem Holds.reduce_eq (h : Holds n k positive negative acc) {reduction : List U128 → Fr} {c : Fr}
    (hreduction : ∀ x, reduction x = (limbsValue (Folded.normalize x) : Fr) * c) :
    acc.reduce reduction =
      (((positive % 2 ^ (64 * n) : Nat) : Fr) - ((negative % 2 ^ (64 * n) : Nat) : Fr)) * c := by
  have hpos : limbsValue (Folded.normalize acc.pos) = positive % 2 ^ (64 * n) := by
    rw [Folded.limbsValue_normalize, h.valuePos, h.lenPos]
  have hneg : limbsValue (Folded.normalize acc.neg) = negative % 2 ^ (64 * n) := by
    rw [Folded.limbsValue_normalize, h.valueNeg, h.lenNeg]
  have hlen : (Folded.normalize acc.pos).length = (Folded.normalize acc.neg).length := by
    rw [Folded.length_normalize, Folded.length_normalize, h.lenPos, h.lenNeg]
  rw [AccumS.reduce, Folded.ge, Folded.cmpLimbs_eq hlen, hpos, hneg]
  rcases lt_or_ge (positive % 2 ^ (64 * n)) (negative % 2 ^ (64 * n)) with hlt | hle
  · rw [compare_lt_iff_lt.mpr hlt, if_neg (by decide), hreduction,
      Folded.limbsValue_sub (h.lenNeg.trans h.lenPos.symm) (by rw [hpos, hneg]; exact hlt.le), hpos, hneg,
      Nat.cast_sub hlt.le]
    ring
  · have hge : (compare (positive % 2 ^ (64 * n)) (negative % 2 ^ (64 * n)) != .lt) = true := by
      rw [bne_iff_ne, Ne, compare_lt_iff_lt]
      exact not_lt.mpr hle
    rw [hge, if_pos rfl, hreduction,
      Folded.limbsValue_sub (h.lenPos.trans h.lenNeg.symm) (by rw [hpos, hneg]; exact hle), hpos, hneg, Nat.cast_sub hle]

/-- What is left of two sums is their difference just when the same is cut off both. -/
theorem mod_sub_iff {c : Fr} (hc : c ≠ 0) {x y : Nat} (hx : x / 2 ^ (64 * n) < 2 ^ 64)
    (hy : y / 2 ^ (64 * n) < 2 ^ 64) :
    (((x % 2 ^ (64 * n) : Nat) : Fr) - ((y % 2 ^ (64 * n) : Nat) : Fr)) * c = ((x : Fr) - (y : Fr)) * c ↔
      x / 2 ^ (64 * n) = y / 2 ^ (64 * n) := by
  have htop : ((2 ^ (64 * n) : Nat) : Fr) ≠ 0 := by
    rw [Nat.cast_pow, Nat.cast_ofNat]
    exact pow_ne_zero _ JoltField.two_ne_zero
  have hmod : 2 ^ 64 ≤ scalarModulus := by decide
  have hsplit (z : Nat) : (z : Fr) =
      ((z % 2 ^ (64 * n) : Nat) : Fr) + ((2 ^ (64 * n) : Nat) : Fr) * ((z / 2 ^ (64 * n) : Nat) : Fr) := by
    rw [← Nat.cast_mul, ← Nat.cast_add, Nat.mod_add_div]
  rw [mul_left_inj' hc, hsplit x, hsplit y]
  constructor
  · intro h
    have hquot : ((2 ^ (64 * n) : Nat) : Fr) * ((x / 2 ^ (64 * n) : Nat) : Fr) =
        ((2 ^ (64 * n) : Nat) : Fr) * ((y / 2 ^ (64 * n) : Nat) : Fr) := by linear_combination -h
    have hcast := (ZMod.natCast_eq_natCast_iff' _ _ _).mp (mul_left_cancel₀ htop hquot)
    rwa [Nat.mod_eq_of_lt (hx.trans_le hmod), Nat.mod_eq_of_lt (hy.trans_le hmod)] at hcast
  · intro h
    rw [h]
    ring

/-- The two integer sums have the sum in the field, in Montgomery form. -/
theorem parts_eq (ops : List (Fr × O)) :
    (positivePart m toInt ops : Fr) - (negativePart m toInt ops : Fr) = exactSum toInt ops * montgomeryR := by
  induction ops with
  | nil => rw [positivePart, negativePart, exactSum]; simp
  | cons op ops ih =>
    rw [positivePart, negativePart, exactSum] at ih ⊢
    have hv : (((toInt op.2).toNat : Int) - ((-toInt op.2).toNat : Int) : Int) = toInt op.2 := by omega
    have hcast : ((toInt op.2).toNat : Fr) - ((-toInt op.2).toNat : Fr) = (toInt op.2 : Fr) := by
      have hfield := congrArg (Int.cast : Int → Fr) hv
      rwa [Int.cast_sub, Int.cast_natCast, Int.cast_natCast] at hfield
    simp only [List.map_cons, List.sum_cons, Nat.cast_add, Nat.cast_mul, m.cast_form]
    linear_combination ih + op.1 * montgomeryR * hcast

/-- **A reduction is of the exact sum** just when the same is cut off both integer sums. -/
theorem reduce_exact_iff (hadds : ∀ acc a o, Adds m n a (toInt o) acc (fmadd acc a o)) {ops : List (Fr × O)}
    (hlen : ops.length < 2 ^ 64) {reduction : List U128 → Fr} {c : Fr} (hc : c ≠ 0)
    (hreduction : ∀ x, reduction x = (limbsValue (Folded.normalize x) : Fr) * c) :
    (accumulateOps fmadd n ops).reduce reduction = exactSum toInt ops * montgomeryR * c ↔ SameExcess m toInt n ops := by
  have hholds := accumulateOps_holds hadds hlen
  have hexcess {xs : List U128} (hxs : xs.length = n) (h : ∀ x ∈ xs, x.toNat ≤ ops.length * (2 ^ 64 - 1)) :
      limbsValue xs / 2 ^ (64 * n) < 2 ^ 64 := by
    have hle := limbsValue_le h
    rw [hxs] at hle
    refine (Nat.div_le_of_le_mul (hle.trans ?_)).trans_lt hlen
    rw [Nat.mul_comm]
    exact Nat.mul_le_mul_right _ (Nat.sub_le _ _)
  rw [hholds.reduce_eq hreduction, ← parts_eq (m := m), SameExcess]
  exact mod_sub_iff hc (hholds.valuePos ▸ hexcess hholds.lenPos hholds.slotPos)
    (hholds.valueNeg ▸ hexcess hholds.lenNeg hholds.slotNeg)

/-- Operands of few bits for the number of operations leave the limbs the room they need. -/
theorem sameExcess_of_bits {ops : List (Fr × O)} {w k : Nat} (hw : ∀ op ∈ ops, (toInt op.2).natAbs < 2 ^ w)
    (hk : ops.length ≤ 2 ^ k) (hn : 254 + w + k ≤ 64 * n) : SameExcess m toInt n ops := by
  have hsum (f : Int → Nat) (hf : ∀ v, f v ≤ v.natAbs) :
      (ops.map fun op => m.form op.1 * f (toInt op.2)).sum < 2 ^ (64 * n) := by
    rcases Nat.eq_zero_or_pos ops.length with hzero | hpos
    · rw [List.length_eq_zero_iff.mp hzero]
      exact Nat.two_pow_pos _
    have hterm : ∀ x ∈ ops.map fun op => m.form op.1 * f (toInt op.2), x ≤ 2 ^ (254 + w) - 1 := fun x hx => by
      obtain ⟨op, hop, rfl⟩ := List.mem_map.mp hx
      have hlt : m.form op.1 * f (toInt op.2) < 2 ^ (254 + w) := form_mul_lt ((hf _).trans_lt (hw op hop)) le_rfl
      omega
    have hle := List.sum_le_card_nsmul _ _ hterm
    rw [List.length_map, smul_eq_mul] at hle
    calc _ ≤ ops.length * (2 ^ (254 + w) - 1) := hle
      _ < ops.length * 2 ^ (254 + w) := Nat.mul_lt_mul_of_pos_left (Nat.sub_lt (Nat.two_pow_pos _) Nat.one_pos) hpos
      _ ≤ 2 ^ k * 2 ^ (254 + w) := Nat.mul_le_mul_right _ hk
      _ = 2 ^ (k + (254 + w)) := (pow_add ..).symm
      _ ≤ 2 ^ (64 * n) := Nat.pow_le_pow_right (by decide) (by omega)
  rw [SameExcess, positivePart, negativePart, Nat.div_eq_of_lt (hsum Int.toNat fun v => by omega),
    Nat.div_eq_of_lt (hsum (fun v => (-v).toNat) fun v => by omega)]

end Run

/-! ## When the accumulators are exact -/

section Tiers

variable (m : BarrettForm)

theorem barrett_exact_iff {O : Type} {toInt : O → Int} {fmadd : AccumS → Fr → O → AccumS} {n : Nat}
    (hadds : ∀ acc a o, Adds m n a (toInt o) acc (fmadd acc a o)) {ops : List (Fr × O)} (hlen : ops.length < 2 ^ 64) :
    (accumulateOps fmadd n ops).reduce m.barrett = exactSum toInt ops ↔ SameExcess m toInt n ops := by
  have hiff := reduce_exact_iff hadds hlen (inv_ne_zero montgomeryR_ne_zero) fun x => m.barrett_eq (Folded.normalize x)
  rwa [mul_inv_cancel_right₀ montgomeryR_ne_zero] at hiff

theorem smallReduce_exact_iff {ops : List (Fr × SmallOperand)} (hlen : ops.length < 2 ^ 64) :
    smallReduce m ops = exactSum SmallOperand.toInt ops ↔ SameExcess m SmallOperand.toInt 5 ops :=
  barrett_exact_iff m (fun _ _ => smallFmadd_adds) hlen

theorem medReduce_exact_iff {ops : List (Fr × MedOperand)} (hlen : ops.length < 2 ^ 64) :
    medReduce m ops = exactSum MedOperand.toInt ops ↔ SameExcess m MedOperand.toInt 6 ops :=
  barrett_exact_iff m (fun _ _ => medFmadd_adds) hlen

theorem wideReduce_exact_iff {ops : List (Fr × WideOperand)} (hlen : ops.length < 2 ^ 64) :
    wideReduce m ops = exactSum WideOperand.toInt ops ↔ SameExcess m WideOperand.toInt 7 ops :=
  barrett_exact_iff m (fun _ _ => wideFmadd_adds) hlen

/-- The Montgomery reduction divides by the constant once more. -/
theorem fullReduce_exact_iff {ops : List (Fr × FullOperand)} (hlen : ops.length < 2 ^ 64) :
    fullReduce m ops = exactSum FullOperand.toInt ops * montgomeryR⁻¹ ↔ SameExcess m FullOperand.toInt 8 ops := by
  have hne := inv_ne_zero montgomeryR_ne_zero
  have hiff := reduce_exact_iff (fun _ _ => fullFmadd_adds (m := m)) hlen (mul_ne_zero hne hne)
    fun x => (m.reduce_eq (limbsValue (Folded.normalize x))).trans (mul_assoc ..)
  rwa [← mul_assoc, mul_inv_cancel_right₀ montgomeryR_ne_zero] at hiff

/-- **The signed accumulators are exact just when** the positive and the negative sum have the same part
past their limbs. -/
theorem signedAccumulators_exact_iff {small : List (Fr × SmallOperand)} {med : List (Fr × MedOperand)}
    {wide : List (Fr × WideOperand)} {full : List (Fr × FullOperand)} (hsmall : small.length < 2 ^ 64)
    (hmed : med.length < 2 ^ 64) (hwide : wide.length < 2 ^ 64) (hfull : full.length < 2 ^ 64) :
    (smallReduce m small = exactSum SmallOperand.toInt small ↔ SameExcess m SmallOperand.toInt 5 small) ∧
      (medReduce m med = exactSum MedOperand.toInt med ↔ SameExcess m MedOperand.toInt 6 med) ∧
      (wideReduce m wide = exactSum WideOperand.toInt wide ↔ SameExcess m WideOperand.toInt 7 wide) ∧
      (fullReduce m full = exactSum FullOperand.toInt full * montgomeryR⁻¹ ↔ SameExcess m FullOperand.toInt 8 full) :=
  ⟨smallReduce_exact_iff m hsmall, medReduce_exact_iff m hmed, wideReduce_exact_iff m hwide, fullReduce_exact_iff m hfull⟩

end Tiers

/-- The representation by canonical integers, with its truncated product and its reduction. -/
def canonicalBarrett : BarrettForm where
  toMontgomeryForm := canonicalForm
  mulTrunc limbs x y := bigInt limbs (x * y)
  fromBarrettReduce x := (limbsValue x : Fr) * montgomeryR⁻¹
  form_lt a := ZMod.val_lt (a * montgomeryR)
  mulTrunc_eq _ _ _ := rfl
  barrett_eq _ := rfl

/-- A negative part that exceeds the positive one, in each of the four. -/
theorem signedAccumulators_exact_two :
    smallReduce canonicalBarrett [(2, .u64 5), (3, .i64 (-7))] = -11 ∧
      medReduce canonicalBarrett [(2, .bool true), (3, .i128 (-7))] = -19 ∧
      wideReduce canonicalBarrett [(2, .s64 ⟨5, true⟩), (3, .s192 ⟨7, false⟩)] = -11 ∧
      fullReduce canonicalBarrett [(2, .s128 ⟨5, true⟩), (3, .s256 ⟨7, false⟩)] = -11 * montgomeryR⁻¹ := by
  obtain ⟨hsmall, hmed, hwide, hfull⟩ := @signedAccumulators_exact_iff canonicalBarrett
    [(2, .u64 5), (3, .i64 (-7))] [(2, .bool true), (3, .i128 (-7))]
    [(2, .s64 ⟨5, true⟩), (3, .s192 ⟨7, false⟩)] [(2, .s128 ⟨5, true⟩), (3, .s256 ⟨7, false⟩)]
    (by decide) (by decide) (by decide) (by decide)
  refine ⟨?_, ?_, ?_, ?_⟩
  · rw [hsmall.mpr (sameExcess_of_bits (w := 3) (k := 1) (by decide) (by decide) (by decide))]
    decide
  · rw [hmed.mpr (sameExcess_of_bits (w := 3) (k := 1) (by decide) (by decide) (by decide))]
    decide
  · rw [hwide.mpr (sameExcess_of_bits (w := 3) (k := 1) (by decide) (by decide) (by decide))]
    decide
  · rw [hfull.mpr (sameExcess_of_bits (w := 3) (k := 1) (by decide) (by decide) (by decide))]
    congr 1

/-- Six products of the greatest form and the greatest operand carry past five limbs. -/
theorem signedAccumulators_overflow :
    smallReduce canonicalBarrett (List.replicate 6 (-montgomeryR⁻¹, .u64 (BitVec.allOnes 64))) ≠
        exactSum SmallOperand.toInt (List.replicate 6 (-montgomeryR⁻¹, .u64 (BitVec.allOnes 64))) ∧
      ¬ ∀ (m : BarrettForm) (ops : List (Fr × SmallOperand)), ops.length < 2 ^ 64 →
        smallReduce m ops = exactSum SmallOperand.toInt ops := by
  have hform : canonicalBarrett.form (-montgomeryR⁻¹) = scalarModulus - 1 := by
    have hval : (-montgomeryR⁻¹) * montgomeryR = (-1 : Fr) := by
      rw [neg_mul, inv_mul_cancel₀ montgomeryR_ne_zero]
    change ((-montgomeryR⁻¹) * montgomeryR).val = _
    rw [hval, ZMod.neg_val, if_neg one_ne_zero, ZMod.val_one]
  have hlen : (List.replicate 6 ((-montgomeryR⁻¹ : Fr), SmallOperand.u64 (BitVec.allOnes 64))).length < 2 ^ 64 := by
    rw [List.length_replicate]
    decide
  have hoverflow : smallReduce canonicalBarrett (List.replicate 6 (-montgomeryR⁻¹, .u64 (BitVec.allOnes 64))) ≠
      exactSum SmallOperand.toInt (List.replicate 6 (-montgomeryR⁻¹, .u64 (BitVec.allOnes 64))) := by
    intro hexact
    have hsame := (smallReduce_exact_iff canonicalBarrett hlen).mp hexact
    have hoperand : SmallOperand.toInt (.u64 (BitVec.allOnes 64)) = 2 ^ 64 - 1 := rfl
    simp only [SameExcess, positivePart, negativePart, List.map_replicate, List.sum_replicate, hform, hoperand, smul_eq_mul,
      pow_mul] at hsame
    revert hsame
    decide
  exact ⟨hoverflow, fun hall => hoverflow (hall canonicalBarrett _ hlen)⟩

end LightningJolt
