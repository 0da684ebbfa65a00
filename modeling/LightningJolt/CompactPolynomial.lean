/-
Multilinear polynomials of small scalars (`jolt-core/src/utils/small_scalar.rs`,
`jolt-core/src/poly/compact_polynomial.rs`): the first binding with differences taken in
the scalars' type, the later ones in the field, and the evaluations.
-/
import LightningJolt.DenseBinding
import LightningJolt.R1csInputs
import LightningJolt.ScalarField

namespace LightningJolt

variable {F C : Type} [JoltField F]

/-! ## Small scalars -/

/-- `SmallScalar`, with the order of the scalars. -/
structure SmallScalar (T F : Type) where
  cmp : T → T → Ordering
  fieldMul : T → F → F
  toField : T → F
  diffMulField : T → T → F → F

inductive ScalarType where
  | bool | u8 | u16 | u32 | u64 | i64 | u128 | i128 | s64 | s128
deriving DecidableEq

/-- The values of a type; the signed magnitudes have two zeros. -/
def ScalarType.Carrier : ScalarType → Type
  | .bool => Bool
  | .u8 => BitVec 8
  | .u16 => BitVec 16
  | .u32 => BitVec 32
  | .u64 => BitVec 64
  | .i64 => BitVec 64
  | .u128 => BitVec 128
  | .i128 => BitVec 128
  | .s64 => SignedMagnitude 64
  | .s128 => SignedMagnitude 128

/-- What a scalar stands for. -/
def ScalarType.value : (t : ScalarType) → t.Carrier → Int
  | .bool, a => Bool.toInt a
  | .u8, a => BitVec.toNat a
  | .u16, a => BitVec.toNat a
  | .u32, a => BitVec.toNat a
  | .u64, a => BitVec.toNat a
  | .i64, a => BitVec.toInt a
  | .u128, a => BitVec.toNat a
  | .i128, a => BitVec.toInt a
  | .s64, a => SignedMagnitude.toInt a
  | .s128, a => SignedMagnitude.toInt a

namespace SmallScalar

/-- `abs_diff` of unsigned words. -/
def absDiff (a b : Nat) : Nat := if a < b then b - a else a - b

def bool : SmallScalar Bool F where
  cmp a b := compare a.toNat b.toNat
  fieldMul a n := if a then n else 0
  toField a := if a then 1 else 0
  diffMulField a b r := if a ^^ b then r else 0

/-- The words of up to 64 bits without a sign. -/
def unsigned (w : Nat) : SmallScalar (BitVec w) F where
  cmp a b := compare a.toNat b.toNat
  fieldMul a n := n * (a.toNat : F)
  toField a := (a.toNat : F)
  diffMulField a b r := r * (absDiff a.toNat b.toNat : F)

def u8 : SmallScalar (BitVec 8) F := unsigned 8
def u16 : SmallScalar (BitVec 16) F := unsigned 16
def u32 : SmallScalar (BitVec 32) F := unsigned 32
def u64 : SmallScalar (BitVec 64) F := unsigned 64

def i64 : SmallScalar (BitVec 64) F where
  cmp a b := compare a.toInt b.toInt
  fieldMul a n := if a.toInt < 0 then -(n * (a.toInt.natAbs : F)) else n * (a.toInt.toNat : F)
  toField a := (a.toInt : F)
  diffMulField a b r := r * ((a.toInt - b.toInt).natAbs : F)

def u128 : SmallScalar (BitVec 128) F where
  cmp a b := compare a.toNat b.toNat
  fieldMul a n := n * (a.toNat : F)
  toField a := (a.toNat : F)
  diffMulField a b r :=
    let diff := absDiff a.toNat b.toNat
    if diff = 0 then 0 else r * (diff : F)

def i128 : SmallScalar (BitVec 128) F where
  cmp a b := compare a.toInt b.toInt
  fieldMul a n := n * (a.toInt : F)
  toField a := (a.toInt : F)
  diffMulField a b r :=
    let diff := (a.toInt - b.toInt).natAbs
    if diff = 0 then 0 else r * (diff : F)

/-- Of `S64` the difference of 128 bits is cut to 64. -/
def s64 (cmp : SignedMagnitude 64 → SignedMagnitude 64 → Ordering) : SmallScalar (SignedMagnitude 64) F where
  cmp := cmp
  fieldMul a n := if a.isPositive then n * (a.magnitude.toNat : F) else -(n * (a.magnitude.toNat : F))
  toField a := if a.isPositive then (a.magnitude.toNat : F) else -(a.magnitude.toNat : F)
  diffMulField a b r :=
    let diff := (a.toInt - b.toInt).natAbs
    r * ((diff % 2 ^ 64 : Nat) : F)

/-- `S128::to_i128`. -/
def toI128 (a : SignedMagnitude 128) : Option Int :=
  if -2 ^ 127 ≤ a.toInt ∧ a.toInt < 2 ^ 127 then .some a.toInt else .none

/-- `S128`, with the difference of the trait's default. -/
def s128 (cmp : SignedMagnitude 128 → SignedMagnitude 128 → Ordering) :
    SmallScalar (SignedMagnitude 128) F :=
  let fieldMul := fun (a : SignedMagnitude 128) (n : F) =>
    if a.isPositive then n * (a.magnitude.toNat : F) else -(n * (a.magnitude.toNat : F))
  { cmp := cmp
    fieldMul := fieldMul
    toField := fun a =>
      match toI128 a with
      | .some v => (v : F)
      | .none => if a.isPositive then (a.magnitude.toNat : F) else -(a.magnitude.toNat : F)
    diffMulField := fun a b r =>
      if cmp a b = .gt then fieldMul a r - fieldMul b r else fieldMul b r - fieldMul a r }

end SmallScalar

/-- The order of the signed magnitudes, of which only that it is the order of the values is used. -/
structure SignedOrders where
  cmp64 : SignedMagnitude 64 → SignedMagnitude 64 → Ordering
  cmp128 : SignedMagnitude 128 → SignedMagnitude 128 → Ordering

/-- The order goes by the values, where these differ. -/
def OrdersValues {T : Type} (cmp : T → T → Ordering) (value : T → Int) : Prop :=
  ∀ a b, (value a < value b → cmp a b = .lt) ∧ (value b < value a → cmp a b = .gt)

structure SignedOrders.Lawful (cmps : SignedOrders) : Prop where
  cmp64 : OrdersValues cmps.cmp64 SignedMagnitude.toInt
  cmp128 : OrdersValues cmps.cmp128 SignedMagnitude.toInt

/-- The implementation for each type. -/
def ScalarType.ops (cmps : SignedOrders) : (t : ScalarType) → SmallScalar t.Carrier F
  | .bool => SmallScalar.bool
  | .u8 => SmallScalar.u8
  | .u16 => SmallScalar.u16
  | .u32 => SmallScalar.u32
  | .u64 => SmallScalar.u64
  | .i64 => SmallScalar.i64
  | .u128 => SmallScalar.u128
  | .i128 => SmallScalar.i128
  | .s64 => SmallScalar.s64 cmps.cmp64
  | .s128 => SmallScalar.s128 cmps.cmp128

/-! ## The polynomial -/

/-- `CompactPolynomial`: the scalars, or once a variable is bound the first `len` of the field
elements in their place. -/
structure CompactPolynomial (T F : Type) where
  numVars : Nat
  len : Nat
  coeffs : List T
  boundCoeffs : List F

/-- Pairs of adjacent elements: `chunks_exact(2)`. -/
def chunksExactTwo {α : Type} : List α → List (α × α)
  | a :: b :: l => (a, b) :: chunksExactTwo l
  | _ => []

namespace CompactPolynomial

variable {T : Type} (ops : SmallScalar T F)

def fromCoeffs (coeffs : List T) : Option (CompactPolynomial T F) :=
  if 2 ^ coeffs.length.log2 = coeffs.length then .some ⟨coeffs.length.log2, coeffs.length, coeffs, []⟩ else .none

def isBound (p : CompactPolynomial T F) : Bool := !p.boundCoeffs.isEmpty

/-- The first binding of a pair: the difference is taken of the larger and the smaller scalar. -/
def bindPair (r : F) (a b : T) : F :=
  match ops.cmp a b with
  | .eq => ops.toField a
  | .lt => ops.toField a + ops.diffMulField b a r
  | .gt => ops.toField a - ops.diffMulField a b r

/-- The first binding, serial or parallel. -/
def bindScalars (r : F) (order : BindingOrder) (coeffs : List T) (n : Nat) : List F :=
  match order with
  | .lowToHigh => ((chunksExactTwo coeffs).take n).map fun p => bindPair ops r p.1 p.2
  | .highToLow => List.zipWith (bindPair ops r) (coeffs.take n) (coeffs.drop n)

/-- `bind`: an entry is written once it is no longer read. -/
def bind (p : CompactPolynomial T F) (r : F) (order : BindingOrder) : CompactPolynomial T F :=
  let n := p.len / 2
  { numVars := p.numVars - 1
    len := n
    coeffs := if p.isBound then p.coeffs else []
    boundCoeffs :=
      if p.isBound then
        match order with
        | .lowToHigh => (List.range n).map fun i => p.boundCoeffs.getD (2 * i) 0 +
            r * (p.boundCoeffs.getD (2 * i + 1) 0 - p.boundCoeffs.getD (2 * i) 0)
        | .highToLow =>
            List.zipWith (fun a b => a + r * (b - a)) (p.boundCoeffs.take n) (p.boundCoeffs.drop n)
      else bindScalars ops r order p.coeffs n }

/-- `bind_parallel`. -/
def bindParallel (p : CompactPolynomial T F) (r : F) (order : BindingOrder) : CompactPolynomial T F :=
  let n := p.len / 2
  { numVars := p.numVars - 1
    len := n
    coeffs := if p.isBound then p.coeffs else []
    boundCoeffs :=
      if p.isBound then
        match order with
        | .lowToHigh =>
            ((chunksExactTwo p.boundCoeffs).take n).map fun coeffs => coeffs.1 + (coeffs.2 - coeffs.1) * r
        | .highToLow =>
            List.zipWith (fun a b => a + r * (b - a)) (p.boundCoeffs.take n) (p.boundCoeffs.drop n)
      else bindScalars ops r order p.coeffs n }

def finalSumcheckClaim (p : CompactPolynomial T F) : Option F :=
  if p.len = 1 then p.boundCoeffs[0]? else .none

/-- `coeffs_as_field_elements`, or the bound coefficients in their place. -/
def coefficients (p : CompactPolynomial T F) : List F :=
  if p.isBound then p.boundCoeffs else p.coeffs.map ops.toField

end CompactPolynomial

/-! ## Evaluations -/

/-- `split_eq_evaluate`, serial or parallel, of the products of the coefficients with the
entries of the second table. -/
def splitEqEvaluate (product : Nat → F → Option F) (eqOne eqTwo : List F) : Option F := do
  let terms ← (List.range eqOne.length).mapM fun x1 => do
    let inner ← (List.range eqTwo.length).mapM fun x2 => product (x1 * eqTwo.length + x2) (eqTwo.getD x2 0)
    .some (inner.sum * eqOne.getD x1 0)
  .some terms.sum

/-- A round of `inside_out_evaluate`. -/
def insideOutRound [DecidableEq F] (current : List F) (r : F) : List F :=
  List.zipWith (fun f0 f1 =>
    let slope := f1 - f0
    if slope = 0 then f0 else if slope = 1 then f0 + r else f0 + slope * r)
    (current.take (current.length / 2)) (current.drop (current.length / 2))

namespace CompactPolynomial

variable {T : Type} (ops : SmallScalar T F) (p : CompactPolynomial T F)

def splitEqEvaluate (eqOne eqTwo : List F) : Option F :=
  LightningJolt.splitEqEvaluate (fun i e => (p.coeffs[i]?).map fun a => ops.fieldMul a e) eqOne eqTwo

/-- `evaluate`, over the tables of the two halves of a point. -/
def evaluate [Challenge C F] (r : List C) : Option F :=
  p.splitEqEvaluate ops (EqPolynomial.evals (r.take (r.length / 2))) (EqPolynomial.evals (r.drop (r.length / 2)))

def insideOutEvaluate [DecidableEq F] (r : List F) : Option F :=
  if r.length = p.numVars then (r.foldl insideOutRound (p.coeffs.map ops.toField))[0]? else .none

def dotProduct (other : List F) : Option F :=
  if p.coeffs.length = other.length then .some (List.zipWith ops.fieldMul p.coeffs other).sum else .none

end CompactPolynomial

namespace DensePolynomial

variable (Z : List F)

def splitEqEvaluate (eqOne eqTwo : List F) : Option F :=
  LightningJolt.splitEqEvaluate (fun i e => (Z[i]?).map fun z => e * z) eqOne eqTwo

def evaluate [Challenge C F] (r : List C) : Option F :=
  splitEqEvaluate Z (EqPolynomial.evals (r.take (r.length / 2))) (EqPolynomial.evals (r.drop (r.length / 2)))

def insideOutEvaluate [DecidableEq F] (r : List F) : Option F :=
  if r.length = Z.length.log2 then (r.foldl insideOutRound Z)[0]? else .none

/-- `compute_dotproduct`. -/
def dotProduct (other : List F) : Option F :=
  if Z.length = other.length then .some (List.zipWith (· * ·) Z other).sum else .none

end DensePolynomial

/-! ## Scalars and their values -/

namespace SmallScalar

variable {T : Type}

/-- The operations but the difference are those of the values. -/
structure Lawful (ops : SmallScalar T F) (value : T → Int) : Prop where
  cmp : OrdersValues ops.cmp value
  fieldMul : ∀ a n, ops.fieldMul a n = n * (value a : F)
  toField : ∀ a, ops.toField a = (value a : F)

/-- The difference is that of the values, without its sign. -/
def DiffExact (ops : SmallScalar T F) (value : T → Int) : Prop :=
  ∀ a b r, ops.diffMulField a b r = r * ((value a - value b).natAbs : F)

theorem natAbs_sub_natCast (a b : Nat) : ((a : Int) - b).natAbs = absDiff a b := by
  unfold absDiff
  split_ifs <;> omega

theorem ordersValues_compare (value : T → Int) : OrdersValues (fun a b => compare (value a) (value b)) value :=
  fun _ _ => ⟨compare_lt_iff_lt.mpr, compare_gt_iff_gt.mpr⟩

theorem unsigned_lawful (w : Nat) : (unsigned w : SmallScalar (BitVec w) F).Lawful fun a => a.toNat where
  cmp := fun a b => ⟨fun h => compare_lt_iff_lt.mpr (Int.ofNat_lt.mp h),
    fun h => compare_gt_iff_gt.mpr (Int.ofNat_lt.mp h)⟩
  fieldMul := fun a n => by rw [unsigned, Int.cast_natCast]
  toField := fun a => by rw [unsigned, Int.cast_natCast]

theorem unsigned_diffExact (w : Nat) : (unsigned w : SmallScalar (BitVec w) F).DiffExact fun a => a.toNat :=
  fun a b r => by rw [unsigned, natAbs_sub_natCast]

theorem bool_lawful : (bool : SmallScalar Bool F).Lawful Bool.toInt where
  cmp := fun a b => by
    cases a <;> cases b <;> refine ⟨fun h => ?_, fun h => ?_⟩ <;> first | rfl | exact absurd h (by decide)
  fieldMul := fun a n => by cases a <;> simp [bool, Bool.toInt]
  toField := fun a => by cases a <;> simp [bool, Bool.toInt]

theorem bool_diffExact : (bool : SmallScalar Bool F).DiffExact Bool.toInt :=
  fun a b r => by cases a <;> cases b <;> simp [bool, Bool.toInt]

theorem natAbs_of_nonneg {v : Int} (h : 0 ≤ v) : (v.toNat : F) = (v : F) := by
  rw [← Int.cast_natCast, Int.toNat_of_nonneg h]

theorem natAbs_of_neg {v : Int} (h : v < 0) : -(v.natAbs : F) = (v : F) := by
  rw [← Int.cast_natCast, Int.ofNat_natAbs_of_nonpos h.le, Int.cast_neg, neg_neg]

theorem i64_lawful : (i64 : SmallScalar (BitVec 64) F).Lawful BitVec.toInt where
  cmp := ordersValues_compare _
  fieldMul := fun a n => by
    simp only [i64]
    split_ifs with h
    · rw [← mul_neg, natAbs_of_neg h]
    · rw [natAbs_of_nonneg (by omega)]
  toField := fun a => rfl

theorem u128_lawful : (u128 : SmallScalar (BitVec 128) F).Lawful fun a => a.toNat where
  cmp := (unsigned_lawful (F := F) 128).cmp
  fieldMul := (unsigned_lawful 128).fieldMul
  toField := (unsigned_lawful 128).toField

/-- A product skipped where the difference is zero. -/
theorem mul_or_zero (r : F) (diff : Nat) : (if diff = 0 then 0 else r * (diff : F)) = r * (diff : F) := by
  split_ifs with h
  · rw [h, Nat.cast_zero, mul_zero]
  · rfl

theorem u128_diffExact : (u128 : SmallScalar (BitVec 128) F).DiffExact fun a => a.toNat :=
  fun a b r => by
    rw [natAbs_sub_natCast]
    exact mul_or_zero r _

theorem i128_lawful : (i128 : SmallScalar (BitVec 128) F).Lawful BitVec.toInt where
  cmp := ordersValues_compare _
  fieldMul := fun _ _ => rfl
  toField := fun _ => rfl

theorem i128_diffExact : (i128 : SmallScalar (BitVec 128) F).DiffExact BitVec.toInt :=
  fun _ _ r => mul_or_zero r _

theorem signed_cast {w : Nat} (a : SignedMagnitude w) :
    (if a.isPositive then (a.magnitude.toNat : F) else -(a.magnitude.toNat : F)) = (a.toInt : F) := by
  unfold SignedMagnitude.toInt
  split_ifs <;> simp

theorem signed_mul {w : Nat} (a : SignedMagnitude w) (n : F) :
    (if a.isPositive then n * (a.magnitude.toNat : F) else -(n * (a.magnitude.toNat : F))) =
      n * (a.toInt : F) := by
  rw [← signed_cast, mul_ite, mul_neg]

theorem s64_lawful {cmp : SignedMagnitude 64 → SignedMagnitude 64 → Ordering}
    (h : OrdersValues cmp SignedMagnitude.toInt) :
    (s64 cmp : SmallScalar (SignedMagnitude 64) F).Lawful SignedMagnitude.toInt where
  cmp := h
  fieldMul := signed_mul
  toField := signed_cast

theorem s128_lawful {cmp : SignedMagnitude 128 → SignedMagnitude 128 → Ordering}
    (h : OrdersValues cmp SignedMagnitude.toInt) :
    (s128 cmp : SmallScalar (SignedMagnitude 128) F).Lawful SignedMagnitude.toInt where
  cmp := h
  fieldMul := signed_mul
  toField := fun a => by
    by_cases hfits : -2 ^ 127 ≤ a.toInt ∧ a.toInt < 2 ^ 127
    · simp only [s128, toI128, if_pos hfits]
    · simp only [s128, toI128, if_neg hfits]
      exact signed_cast a

theorem cast_natAbs {a b : Int} (h : b ≤ a) : ((a - b).natAbs : F) = (a : F) - b := by
  rw [← Int.cast_natCast, Int.natAbs_of_nonneg (by omega), Int.cast_sub]

theorem s128_diffExact {cmp : SignedMagnitude 128 → SignedMagnitude 128 → Ordering}
    (h : OrdersValues cmp SignedMagnitude.toInt) :
    (s128 cmp : SmallScalar (SignedMagnitude 128) F).DiffExact SignedMagnitude.toInt := by
  intro a b r
  simp only [s128, signed_mul]
  split_ifs with hgt
  · have hle : b.toInt ≤ a.toInt := by
      by_contra hlt
      rw [((h a b).1 (by omega))] at hgt
      cases hgt
    rw [cast_natAbs hle, mul_sub]
  · have hle : a.toInt ≤ b.toInt := by
      by_contra hlt
      exact hgt ((h a b).2 (by omega))
    rw [← Int.natAbs_neg, Int.neg_sub, cast_natAbs hle, mul_sub]

end SmallScalar

namespace ScalarType

theorem ops_lawful {cmps : SignedOrders} (h : cmps.Lawful) (t : ScalarType) :
    (t.ops cmps : SmallScalar t.Carrier F).Lawful t.value := by
  cases t with
  | bool => exact SmallScalar.bool_lawful
  | u8 => exact SmallScalar.unsigned_lawful 8
  | u16 => exact SmallScalar.unsigned_lawful 16
  | u32 => exact SmallScalar.unsigned_lawful 32
  | u64 => exact SmallScalar.unsigned_lawful 64
  | i64 => exact SmallScalar.i64_lawful
  | u128 => exact SmallScalar.u128_lawful
  | i128 => exact SmallScalar.i128_lawful
  | s64 => exact SmallScalar.s64_lawful h.cmp64
  | s128 => exact SmallScalar.s128_lawful h.cmp128

theorem ops_diffExact {cmps : SignedOrders} (h : cmps.Lawful) {t : ScalarType} (ht : t ≠ .s64) :
    (t.ops cmps : SmallScalar t.Carrier F).DiffExact t.value := by
  cases t with
  | bool => exact SmallScalar.bool_diffExact
  | u8 => exact SmallScalar.unsigned_diffExact 8
  | u16 => exact SmallScalar.unsigned_diffExact 16
  | u32 => exact SmallScalar.unsigned_diffExact 32
  | u64 => exact SmallScalar.unsigned_diffExact 64
  | i64 => exact fun a b r => rfl
  | u128 => exact SmallScalar.u128_diffExact
  | i128 => exact SmallScalar.i128_diffExact
  | s64 => exact absurd rfl ht
  | s128 => exact SmallScalar.s128_diffExact h.cmp128

end ScalarType

/-! ## The first binding -/

namespace CompactPolynomial

variable {T : Type} {ops : SmallScalar T F} {value : T → Int}

theorem bindPair_lt (h : ops.Lawful value) (r : F) {a b : T} (hlt : value a < value b) :
    bindPair ops r a b = (value a : F) + ops.diffMulField b a r := by
  simp only [bindPair, (h.cmp a b).1 hlt, h.toField]

theorem bindPair_gt (h : ops.Lawful value) (r : F) {a b : T} (hgt : value b < value a) :
    bindPair ops r a b = (value a : F) - ops.diffMulField a b r := by
  simp only [bindPair, (h.cmp a b).2 hgt, h.toField]

/-- Of equal values any order will do. -/
theorem bindPair_equal (h : ops.Lawful value) {r : F} {a b : T} (heq : value a = value b)
    (hab : ops.diffMulField a b r = 0) (hba : ops.diffMulField b a r = 0) :
    bindPair ops r a b = line r (value a : F) (value b : F) := by
  rw [bindPair, h.toField, hab, hba, heq, line, sub_self, mul_zero, add_zero, sub_zero]
  cases ops.cmp a b <;> rfl

theorem bindPair_exact (h : ops.Lawful value) (hdiff : ops.DiffExact value) (r : F) (a b : T) :
    bindPair ops r a b = line r (value a : F) (value b : F) := by
  rcases lt_trichotomy (value a) (value b) with hlt | heq | hgt
  · rw [bindPair_lt h r hlt, hdiff, SmallScalar.cast_natAbs hlt.le, line]
  · exact bindPair_equal h heq (by rw [hdiff, heq]; simp) (by rw [hdiff, heq]; simp)
  · rw [bindPair_gt h r hgt, hdiff, SmallScalar.cast_natAbs hgt.le, line]
    ring

/-- A difference of two magnitudes of 64 bits loses its highest bit, or nothing. -/
theorem mul_mod_eq_iff (r : F) {d : Nat} (hd : d < 2 ^ 65) :
    r * ((d % 2 ^ 64 : Nat) : F) = r * (d : F) ↔ d < 2 ^ 64 ∨ r = 0 := by
  have htop : (2 : F) ^ 64 ≠ 0 := pow_ne_zero 64 JoltField.two_ne_zero
  by_cases hfits : d < 2 ^ 64
  · rw [Nat.mod_eq_of_lt hfits]
    exact ⟨fun _ => .inl hfits, fun _ => rfl⟩
  · have hd' : d = d % 2 ^ 64 + 2 ^ 64 := by omega
    have hcast : (d : F) = ((d % 2 ^ 64 : Nat) : F) + 2 ^ 64 := by
      rw [congrArg (Nat.cast (R := F)) hd', Nat.cast_add, Nat.cast_pow, Nat.cast_ofNat]
    rw [hcast, mul_add, left_eq_add, mul_eq_zero, or_iff_left htop, or_iff_right hfits]

/-- Of `S64` a pair is bound right where its difference has 64 bits, or is not used. -/
theorem bindPair_s64_iff {cmp : SignedMagnitude 64 → SignedMagnitude 64 → Ordering}
    (h : OrdersValues cmp SignedMagnitude.toInt) (r : F) (a b : SignedMagnitude 64) :
    bindPair (SmallScalar.s64 cmp) r a b = line r (a.toInt : F) (b.toInt : F) ↔
      (a.toInt - b.toInt).natAbs < 2 ^ 64 ∨ r = 0 := by
  have hlaw := SmallScalar.s64_lawful (F := F) h
  have ha := a.natAbs_toInt_lt
  have hb := b.natAbs_toInt_lt
  have hdiff : ∀ a b, (SmallScalar.s64 cmp : SmallScalar _ F).diffMulField a b r =
      r * (((a.toInt - b.toInt).natAbs % 2 ^ 64 : Nat) : F) := fun _ _ => rfl
  have hswap : (b.toInt - a.toInt).natAbs = (a.toInt - b.toInt).natAbs := by omega
  rcases lt_trichotomy a.toInt b.toInt with hlt | heq | hgt
  · rw [bindPair_lt hlaw r hlt, hdiff, line, add_right_inj, ← SmallScalar.cast_natAbs hlt.le,
      mul_mod_eq_iff r (by omega), hswap]
  · have hzero : ∀ a b : SignedMagnitude 64, a.toInt = b.toInt →
        (SmallScalar.s64 cmp : SmallScalar _ F).diffMulField a b r = 0 := by
      intro a b heq
      rw [hdiff, heq, sub_self]
      simp
    exact ⟨fun _ => .inl (by omega), fun _ => bindPair_equal hlaw heq (hzero a b heq) (hzero b a heq.symm)⟩
  · have hline : line r (a.toInt : F) (b.toInt : F) =
        (a.toInt : F) - r * ((a.toInt - b.toInt).natAbs : F) := by
      rw [SmallScalar.cast_natAbs hgt.le, line]
      ring
    rw [bindPair_gt hlaw r hgt, hdiff, hline, sub_right_inj, mul_mod_eq_iff r (by omega)]

/-! ## Runs of bindings -/

/-- A polynomial that stands for dense coefficients, the scalars' or the bound ones. -/
structure Stands (p : CompactPolynomial T F) (Z : List F) : Prop where
  len : p.len = Z.length
  bound : p.boundCoeffs = Z
  nonempty : Z ≠ []

theorem chunksExactTwo_eq {α : Type} (l : List α) (d : α) {n : Nat} (h : l.length = 2 * n) :
    chunksExactTwo l = tableOf n fun i => (l.getD (2 * i) d, l.getD (2 * i + 1) d) := by
  induction n generalizing l with
  | zero =>
    rw [List.length_eq_zero_iff.mp (by omega : l.length = 0)]
    rfl
  | succ n ih =>
    match l with
    | a :: b :: l =>
      rw [chunksExactTwo, ih l (by simp only [List.length_cons] at h; omega), Nat.add_comm n 1, tableOf_add]
      refine congrArg₂ List.cons rfl (tableOf_congr fun i _ => ?_)
      rw [show 2 * (1 + i) = 2 * i + 1 + 1 by ring, show 2 * i + 1 + 1 + 1 = (2 * i + 1) + 1 + 1 by ring]
      simp only [List.getD_cons_succ]

omit [JoltField F] in
theorem isBound_of_stands {p : CompactPolynomial T F} {Z : List F} (h : p.Stands Z) : p.isBound = true := by
  rw [isBound, h.bound]
  simpa using h.nonempty

/-- A later binding, serial or parallel, is that of the dense coefficients. -/
theorem stands_bind {p : CompactPolynomial T F} {Z : List F} (h : p.Stands Z) {n : Nat}
    (hlen : Z.length = 2 * n) (hn : 0 < n) (r : F) (order : BindingOrder) :
    (bind ops p r order).Stands (DensePolynomial.bind order Z r) ∧
      (bindParallel ops p r order).Stands (DensePolynomial.bind order Z r) := by
  have htable := tableOf_getD Z 0
  have hhalf : p.len / 2 = n := by rw [h.len]; omega
  have hdense : DensePolynomial.bind order Z r = tableOf n (bindFn order n r fun i => Z.getD i 0) := by
    rw [← DensePolynomial.bind_tableOf, ← hlen, htable]
  have hne : tableOf n (bindFn order n r fun i => Z.getD i 0) ≠ [] := by
    intro hnil
    have := congrArg List.length hnil
    rw [length_tableOf, List.length_nil] at this
    omega
  have hhigh : order = .highToLow → List.zipWith (fun a b => a + r * (b - a)) (p.boundCoeffs.take n)
      (p.boundCoeffs.drop n) = tableOf n (bindFn order n r fun i => Z.getD i 0) := by
    rintro rfl
    rw [h.bound, ← hdense, DensePolynomial.bind, DensePolynomial.boundPolyVarTop, hlen,
      show 2 * n / 2 = n by omega]
  rw [hdense]
  refine ⟨⟨by simp only [bind, hhalf, length_tableOf], ?_, hne⟩,
    ⟨by simp only [bindParallel, hhalf, length_tableOf], ?_, hne⟩⟩
  · simp only [bind, hhalf, isBound_of_stands h, if_true]
    cases order with
    | highToLow => exact hhigh rfl
    | lowToHigh =>
      rw [h.bound]
      rfl
  · simp only [bindParallel, hhalf, isBound_of_stands h, if_true]
    cases order with
    | highToLow => exact hhigh rfl
    | lowToHigh =>
      rw [h.bound, chunksExactTwo_eq Z 0 hlen, List.take_of_length_le (by rw [length_tableOf]), map_tableOf]
      refine tableOf_congr fun i _ => ?_
      rw [bindFn, line, mul_comm r]
      rfl

/-- The first binding makes a coefficient of each pair. -/
theorem bindScalars_eq (r : F) (order : BindingOrder) {coeffs : List T} (d : T) {n : Nat}
    (hlen : coeffs.length = 2 * n) : bindScalars ops r order coeffs n = tableOf n fun i =>
      bindPair ops r (coeffs.getD (order.pair n i).1 d) (coeffs.getD (order.pair n i).2 d) := by
  cases order with
  | lowToHigh =>
    rw [bindScalars, chunksExactTwo_eq coeffs d hlen, List.take_of_length_le (by rw [length_tableOf]),
      map_tableOf]
    rfl
  | highToLow =>
    have htable := tableOf_getD coeffs d
    rw [hlen, two_mul, tableOf_add] at htable
    rw [bindScalars, ← htable, List.take_left' length_tableOf, List.drop_left' length_tableOf, zipWith_tableOf]
    refine tableOf_congr fun i hi => ?_
    rw [htable]
    rfl

/-- A binding, in parallel or not. -/
def step (ops : SmallScalar T F) (order : BindingOrder) (p : CompactPolynomial T F) (s : Bool × F) :
    CompactPolynomial T F :=
  if s.1 then bindParallel ops p s.2 order else bind ops p s.2 order

/-- The coefficients are the dense ones, and so is the final claim once one is left. -/
structure Agrees (ops : SmallScalar T F) (p : CompactPolynomial T F) (Z : List F) : Prop where
  coefficients : p.coefficients ops = Z
  claim : Z.length = 1 → p.finalSumcheckClaim = DensePolynomial.finalSumcheckClaim Z

/-- After any number of the bindings the polynomial is the dense one of the same values. -/
def BindsExactly (ops : SmallScalar T F) (value : T → Int) (coeffs : List T) (order : BindingOrder)
    (steps : List (Bool × F)) : Prop :=
  ∃ p, fromCoeffs coeffs = .some p ∧ ∀ steps', steps' <+: steps →
    (steps'.foldl (step ops order) p).Agrees ops
      (DensePolynomial.bindAll order (coeffs.map fun a => (value a : F)) (steps'.map Prod.snd))

/-- What holds of the challenge of the first binding and of every pair that it joins. -/
def FirstPairs (coeffs : List T) (order : BindingOrder) (P : F → T → T → Prop) : List (Bool × F) → Prop
  | [] => True
  | (_, r) :: _ => ∀ i a b, coeffs[(order.pair (coeffs.length / 2) i).1]? = .some a →
      coeffs[(order.pair (coeffs.length / 2) i).2]? = .some b → P r a b

omit [JoltField F] in
theorem Stands.agrees {p : CompactPolynomial T F} {Z : List F} (h : p.Stands Z) : p.Agrees ops Z where
  coefficients := by rw [CompactPolynomial.coefficients, if_pos (isBound_of_stands h), h.bound]
  claim := fun h1 => by
    rw [finalSumcheckClaim, h.len, if_pos h1, h.bound, DensePolynomial.finalSumcheckClaim, if_pos h1]

theorem length_bind {order : BindingOrder} {Z : List F} {n : Nat} (h : Z.length = 2 * n) (r : F) :
    (DensePolynomial.bind order Z r).length = n := by
  have htable := tableOf_getD Z 0
  rw [h] at htable
  rw [← htable, DensePolynomial.bind_tableOf, length_tableOf]

theorem stands_run (order : BindingOrder) (steps : List (Bool × F)) {p : CompactPolynomial T F} {Z : List F}
    {j : Nat} (h : p.Stands Z) (hlen : Z.length = 2 ^ j) (hsteps : steps.length ≤ j) :
    (steps.foldl (step ops order) p).Stands (DensePolynomial.bindAll order Z (steps.map Prod.snd)) := by
  induction steps generalizing p Z j with
  | nil => exact h
  | cons s steps ih =>
    rw [List.length_cons] at hsteps
    obtain ⟨j, rfl⟩ : ∃ j', j = j' + 1 := ⟨j - 1, by omega⟩
    have htwice : Z.length = 2 * 2 ^ j := by rw [hlen, pow_succ]; ring
    obtain ⟨hserial, hparallel⟩ := @stands_bind F _ T ops _ _ h _ htwice (Nat.two_pow_pos j) s.2 order
    have hstep : (step ops order p s).Stands (DensePolynomial.bind order Z s.2) := by
      unfold step
      split_ifs
      · exact hparallel
      · exact hserial
    exact ih hstep (length_bind htwice s.2) (by omega)

/-- The first binding of the scalars, next to that of their values. -/
theorem firstBinding {coeffs : List T} {n : Nat} (hlen : coeffs.length = 2 * n)
    (hn : 0 < n) (order : BindingOrder) (numVars : Nat) (s : Bool × F) :
    ∃ Z, (step ops order ⟨numVars, coeffs.length, coeffs, []⟩ s).Stands Z ∧ Z.length = n ∧
      (Z = DensePolynomial.bind order (coeffs.map fun a => (value a : F)) s.2 ↔
        FirstPairs coeffs order (fun r a b => bindPair ops r a b = line r (value a : F) (value b : F)) [s]) := by
  obtain ⟨d, hd⟩ : ∃ d, coeffs[0]? = .some d := ⟨_, List.getElem?_eq_getElem (by omega)⟩
  have hhalf : coeffs.length / 2 = n := by omega
  have hget : ∀ i < 2 * n, coeffs[i]? = .some (coeffs.getD i d) := by
    intro i hi
    rw [List.getD_eq_getElem?_getD, List.getElem?_eq_getElem (by omega), Option.getD_some]
  have hvalues : coeffs.map (fun a => (value a : F)) = tableOf (2 * n) fun i => (value (coeffs.getD i d) : F) := by
    have hmap := map_tableOf (n := coeffs.length) (f := fun i => coeffs.getD i d) fun a => (value a : F)
    rwa [tableOf_getD, hlen] at hmap
  refine ⟨bindScalars ops s.2 order coeffs n, ⟨?_, ?_, ?_⟩, ?_, ?_⟩
  · rw [bindScalars_eq s.2 order d hlen, length_tableOf]
    unfold step
    split_ifs <;> exact hhalf
  · unfold step
    split_ifs <;> simp only [bind, bindParallel, isBound, List.isEmpty_nil, Bool.not_true, hhalf] <;> rfl
  · intro hnil
    rw [bindScalars_eq s.2 order d hlen] at hnil
    have := congrArg List.length hnil
    rw [length_tableOf, List.length_nil] at this
    omega
  · rw [bindScalars_eq s.2 order d hlen, length_tableOf]
  · rw [bindScalars_eq s.2 order d hlen, hvalues, DensePolynomial.bind_tableOf, tableOf_inj]
    constructor
    · intro hall i a b ha hb
      rw [hhalf] at ha hb
      have hi : i < n := by
        have hlt := (List.getElem?_eq_some_iff.mp hb).1
        cases order with
        | highToLow => simp only [BindingOrder.pair] at hlt; omega
        | lowToHigh => simp only [BindingOrder.pair] at hlt; omega
      obtain ⟨h1, h2⟩ := order.pair_lt hi
      rw [hget _ h1] at ha
      rw [hget _ h2] at hb
      cases ha
      cases hb
      exact hall i hi
    · intro hall i hi
      obtain ⟨h1, h2⟩ := order.pair_lt hi
      refine hall i _ _ ?_ ?_
      · rw [hhalf, hget _ h1]
      · rw [hhalf, hget _ h2]

/-- The bindings are exact where the first one is, unless a single coefficient is asked for
its final claim. -/
theorem bindsExactly_iff (h : ops.Lawful value) {coeffs : List T} {k : Nat} (hlen : coeffs.length = 2 ^ k)
    (order : BindingOrder) {steps : List (Bool × F)} (hsteps : steps.length ≤ k) :
    BindsExactly ops value coeffs order steps ↔ coeffs.length ≠ 1 ∧
      FirstPairs coeffs order (fun r a b => bindPair ops r a b = line r (value a : F) (value b : F)) steps := by
  have hnew : fromCoeffs (F := F) coeffs = .some ⟨coeffs.length.log2, coeffs.length, coeffs, []⟩ := by
    rw [fromCoeffs, hlen, Nat.log2_two_pow, if_pos rfl]
  have hinit : (⟨coeffs.length.log2, coeffs.length, coeffs, []⟩ : CompactPolynomial T F).coefficients ops =
      coeffs.map fun a => (value a : F) := List.map_congr_left fun a _ => h.toField a
  cases k with
  | zero =>
    refine ⟨?_, fun hne => absurd (by rw [hlen, pow_zero]) hne.1⟩
    rintro ⟨p, hp, hagrees⟩
    rw [hnew] at hp
    cases hp
    have hclaim := (hagrees [] (List.nil_prefix)).claim (by simp [DensePolynomial.bindAll, hlen])
    rw [List.foldl_nil, finalSumcheckClaim, if_pos (by rw [hlen, pow_zero])] at hclaim
    obtain ⟨a, rfl⟩ := List.length_eq_one_iff.mp hlen
    cases hclaim
  | succ k =>
    have htwice : coeffs.length = 2 * 2 ^ k := by rw [hlen, pow_succ]; ring
    have hpos := Nat.two_pow_pos k
    constructor
    · rintro ⟨p, hp, hagrees⟩
      rw [hnew] at hp
      cases hp
      refine ⟨by omega, ?_⟩
      cases steps with
      | nil => trivial
      | cons s rest =>
        obtain ⟨Z, hstands, -, hiff⟩ := @firstBinding F _ T ops value _ _ htwice hpos order coeffs.length.log2 s
        refine hiff.mp ?_
        have hfirst := (hagrees [s] ⟨rest, rfl⟩).coefficients
        have hZ := (@Stands.agrees F T ops _ _ hstands).coefficients
        rw [List.foldl_cons, List.foldl_nil, hZ] at hfirst
        exact hfirst
    · rintro ⟨-, hpairs⟩
      refine ⟨_, hnew, ?_⟩
      rintro steps' ⟨rest, rfl⟩
      cases steps' with
      | nil =>
        refine ⟨hinit, fun h1 => ?_⟩
        simp [DensePolynomial.bindAll] at h1
        omega
      | cons s steps' =>
        obtain ⟨Z, hstands, hZlen, hiff⟩ := @firstBinding F _ T ops value _ _ htwice hpos order coeffs.length.log2 s
        have hZ := hiff.mpr hpairs
        simp only [List.cons_append, List.length_cons, List.length_append] at hsteps
        have hrun := @stands_run F _ T ops order steps' _ _ _ hstands hZlen (by omega)
        rw [hZ] at hrun
        exact hrun.agrees

/-! ## Evaluations of the scalars -/

/-- The evaluations are those of the dense polynomial of the same values. -/
structure EvaluatesExactly [DecidableEq F] (ops : SmallScalar T F) (value : T → Int) (coeffs : List T) : Prop where
  splitEq : ∀ p, fromCoeffs coeffs = .some p → ∀ eqOne eqTwo, p.splitEqEvaluate ops eqOne eqTwo =
    DensePolynomial.splitEqEvaluate (coeffs.map fun a => (value a : F)) eqOne eqTwo
  evaluate : ∀ p, fromCoeffs coeffs = .some p → ∀ (C : Type) [Challenge C F] (r : List C), p.evaluate ops r =
    DensePolynomial.evaluate (coeffs.map fun a => (value a : F)) r
  insideOut : ∀ p, fromCoeffs coeffs = .some p → ∀ r, p.insideOutEvaluate ops r =
    DensePolynomial.insideOutEvaluate (coeffs.map fun a => (value a : F)) r
  dotProduct : ∀ p, fromCoeffs coeffs = .some p → ∀ other, p.dotProduct ops other =
    DensePolynomial.dotProduct (coeffs.map fun a => (value a : F)) other

omit [JoltField F] in
theorem fromCoeffs_some {coeffs : List T} {p : CompactPolynomial T F} (h : fromCoeffs coeffs = .some p) :
    p = ⟨coeffs.length.log2, coeffs.length, coeffs, []⟩ := by
  rw [fromCoeffs] at h
  split_ifs at h
  cases h
  rfl

theorem evaluatesExactly [DecidableEq F] (h : ops.Lawful value) (coeffs : List T) :
    EvaluatesExactly (F := F) ops value coeffs := by
  have hsplit : ∀ p : CompactPolynomial T F, fromCoeffs coeffs = .some p → ∀ eqOne eqTwo,
      p.splitEqEvaluate ops eqOne eqTwo =
        DensePolynomial.splitEqEvaluate (coeffs.map fun a => (value a : F)) eqOne eqTwo := by
    intro p hp eqOne eqTwo
    rw [fromCoeffs_some hp, CompactPolynomial.splitEqEvaluate, DensePolynomial.splitEqEvaluate]
    congr 1
    funext i e
    rw [List.getElem?_map]
    cases coeffs[i]? with
    | none => rfl
    | some a => rw [Option.map_some, Option.map_some, Option.map_some, h.fieldMul]
  refine ⟨hsplit, fun p hp C _ r => hsplit p hp _ _, fun p hp r => ?_, fun p hp other => ?_⟩
  · have hinit : coeffs.map ops.toField = coeffs.map fun a => (value a : F) :=
      List.map_congr_left fun a _ => h.toField a
    rw [fromCoeffs_some hp, CompactPolynomial.insideOutEvaluate, DensePolynomial.insideOutEvaluate, hinit,
      List.length_map]
  · have hterms : List.zipWith ops.fieldMul coeffs other =
        List.zipWith (· * ·) (coeffs.map fun a => (value a : F)) other := by
      rw [List.zipWith_map_left]
      congr 1
      funext a n
      rw [h.fieldMul, mul_comm]
    rw [fromCoeffs_some hp, CompactPolynomial.dotProduct, DensePolynomial.dotProduct, List.length_map, hterms]

end CompactPolynomial

/-! ## Every type of scalars -/

/-- The pairs of the first binding differ by no more than the product of the difference holds. -/
def DiffFits (t : ScalarType) (coeffs : List t.Carrier) (order : BindingOrder) (steps : List (Bool × F)) : Prop :=
  t = .s64 → CompactPolynomial.FirstPairs coeffs order
    (fun r a b => (t.value a - t.value b).natAbs < 2 ^ 64 ∨ r = 0) steps

/-- **Compact polynomials**: the bindings, serial or parallel, of at least two small scalars in
either order are those of the dense polynomial of the same values, of `S64` exactly where the
pairs of the first binding differ by less than `2^64`; the evaluations always agree. -/
theorem compact_exact_iff [DecidableEq F] {cmps : SignedOrders} (hcmps : cmps.Lawful) (t : ScalarType)
    {coeffs : List t.Carrier} {k : Nat} (hlen : coeffs.length = 2 ^ k) (order : BindingOrder)
    {steps : List (Bool × F)} (hsteps : steps.length ≤ k) :
    (CompactPolynomial.BindsExactly (t.ops cmps) t.value coeffs order steps ∧
        CompactPolynomial.EvaluatesExactly (F := F) (t.ops cmps) t.value coeffs) ↔
      coeffs.length ≠ 1 ∧ DiffFits t coeffs order steps := by
  have hlaw := ScalarType.ops_lawful (F := F) hcmps t
  rw [and_iff_left (CompactPolynomial.evaluatesExactly hlaw coeffs),
    CompactPolynomial.bindsExactly_iff hlaw hlen order hsteps]
  refine and_congr_right fun _ => ?_
  by_cases ht : t = .s64
  · subst ht
    rw [DiffFits, forall_prop_of_true rfl]
    cases steps with
    | nil => exact Iff.rfl
    | cons s steps =>
      exact forall_congr' fun i => forall_congr' fun a => forall_congr' fun b => imp_congr_right fun _ =>
        imp_congr_right fun _ => CompactPolynomial.bindPair_s64_iff hcmps.cmp64 s.2 a b
  · refine iff_of_true ?_ fun hs => absurd hs ht
    cases steps with
    | nil => trivial
    | cons s steps =>
      exact fun i a b _ _ => CompactPolynomial.bindPair_exact hlaw (ScalarType.ops_diffExact hcmps ht) s.2 a b

/-- The order of the values. -/
def valueOrders : SignedOrders where
  cmp64 a b := compare a.toInt b.toInt
  cmp128 a b := compare a.toInt b.toInt

theorem valueOrders_lawful : valueOrders.Lawful :=
  ⟨SmallScalar.ordersValues_compare _, SmallScalar.ordersValues_compare _⟩

theorem compact_exact_words :
    CompactPolynomial.BindsExactly (F := ZMod 7) (ScalarType.u64.ops valueOrders) ScalarType.u64.value
        [3#64, 10#64, 0#64, 5#64] .lowToHigh [(true, 4), (false, 2)] :=
  ((compact_exact_iff valueOrders_lawful .u64 (k := 2) rfl .lowToHigh (by decide)).mpr
    ⟨by decide, fun h => by cases h⟩).1

/-- The greatest magnitude and its opposite. -/
theorem compact_s64_diverges :
    ¬ CompactPolynomial.BindsExactly (F := Fr) (ScalarType.s64.ops valueOrders) ScalarType.s64.value
      [⟨BitVec.allOnes 64, false⟩, ⟨BitVec.allOnes 64, true⟩] .lowToHigh [(false, 1)] := by
  intro h
  have hpairs := ((CompactPolynomial.bindsExactly_iff
    (SmallScalar.s64_lawful valueOrders_lawful.cmp64) (k := 1) rfl .lowToHigh (by decide)).mp h).2
  rcases (CompactPolynomial.bindPair_s64_iff valueOrders_lawful.cmp64 _ _ _).mp (hpairs 0 _ _ rfl rfl) with
    hfits | hzero
  · exact absurd hfits (by decide)
  · exact one_ne_zero hzero

end LightningJolt
