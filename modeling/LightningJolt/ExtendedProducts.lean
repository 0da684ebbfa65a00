/-
The products of the univariate skip at the nodes outside its window
(`jolt-core/src/zkvm/r1cs/evaluation.rs`), over the integers: what the prover
accumulates in machine words for a row against the sums it stands for.
-/
import LightningJolt.R1csEvaluation
import LightningJolt.UniskipTargets

namespace LightningJolt

/-! ## Accumulators (`jolt-core/src/utils/accumulation.rs`) -/

abbrev S192 := SignedMagnitude 192
abbrev S256 := SignedMagnitude 256

namespace SignedMagnitude

variable {v w : Nat}

/-- The sum, its magnitude cut to the width. -/
def add (a b : SignedMagnitude w) : SignedMagnitude w := ofInt w (a.toInt + b.toInt)

/-- `mul_trunc`: the product, its magnitude cut to `w` bits. -/
def mulTrunc (w : Nat) {u v : Nat} (a : SignedMagnitude u) (b : SignedMagnitude v) : SignedMagnitude w :=
  ofInt w (a.toInt * b.toInt)

/-- `fmadd` of a weight and a term; a term of zero is skipped. -/
def fmadd (sum : SignedMagnitude w) (c : Int) (term : SignedMagnitude v) : SignedMagnitude w :=
  if term.toInt = 0 then sum else sum.add (mulTrunc w (ofInt 64 c) term)

theorem toInt_fmadd {sum : SignedMagnitude w} {c : Int} {term : SignedMagnitude v}
    (hc : c.natAbs < 2 ^ 31) (h : sum.toInt.natAbs + c.natAbs * term.toInt.natAbs < 2 ^ w) :
    (fmadd sum c term).toInt = sum.toInt + c * term.toInt := by
  unfold fmadd
  split_ifs with hzero
  · rw [hzero, mul_zero, add_zero]
  · have hmul : (c * term.toInt).natAbs = c.natAbs * term.toInt.natAbs := Int.natAbs_mul ..
    have hadd : (sum.toInt + c * term.toInt).natAbs ≤ sum.toInt.natAbs + (c * term.toInt).natAbs :=
      Int.natAbs_add_le ..
    have hc64 : (ofInt 64 c).toInt = c := toInt_ofInt (by omega)
    have hprod : (mulTrunc w (ofInt 64 c) term).toInt = c * term.toInt := by
      rw [mulTrunc, hc64]
      exact toInt_ofInt (by omega)
    rw [add, hprod]
    exact toInt_ofInt (by omega)

end SignedMagnitude

namespace S128Sum

def fmaddBool (sum : S128) (c : Int) (right : Bool) : S128 :=
  if right then sum.add (SignedMagnitude.ofInt 128 c) else sum

def fmaddU64 (sum : S128) (c : Int) (right : U64) : S128 :=
  SignedMagnitude.fmadd sum c (SignedMagnitude.ofInt 64 right.toNat)

def fmaddS64 (sum : S128) (c : Int) (right : S64) : S128 := SignedMagnitude.fmadd sum c right

end S128Sum

namespace S192Sum

def fmaddS64 (sum : S192) (c : Int) (term : S64) : S192 := SignedMagnitude.fmadd sum c term

def fmaddI128 (sum : S192) (c : Int) (term : Int) : S192 :=
  SignedMagnitude.fmadd sum c (SignedMagnitude.ofInt 128 term)

def fmaddS160 (sum : S192) (c : Int) (term : S160) : S192 :=
  SignedMagnitude.fmadd sum c (SignedMagnitude.ofInt 192 term.toInt)

end S192Sum

/-! ## A weight at a time -/

/-- What the accumulation does with one constraint: its guard, and the `fmadd`
of its difference. -/
structure AzBzTerm (w : Nat) where
  guard : Bool
  fmadd : SignedMagnitude w → Int → SignedMagnitude w

/-- Where the guard holds the weight goes to `Az`, and the difference is
skipped; where it does not, the difference goes to `Bz`. -/
def AzBzTerm.step {w : Nat} (t : AzBzTerm w) (s : Int × SignedMagnitude w) (c : Int) :
    Int × SignedMagnitude w :=
  if t.guard then (i32 (s.1 + c), s.2) else (s.1, t.fmadd s.2 c)

def accumulateAzBz {w : Nat} : List Int → List (AzBzTerm w) → Int × SignedMagnitude w →
    Int × SignedMagnitude w
  | c :: cs, t :: ts, s => accumulateAzBz cs ts (t.step s c)
  | _, _, s => s

def firstGroupTerms (az : AzFirstGroup) (bz : BzFirstGroup) : List (AzBzTerm 128) :=
  [⟨az.notLoadStore, fun sum c => S128Sum.fmaddU64 sum c bz.ramAddr⟩,
   ⟨az.loadA, fun sum c => S128Sum.fmaddS64 sum c bz.ramReadMinusRamWrite⟩,
   ⟨az.loadB, fun sum c => S128Sum.fmaddS64 sum c bz.ramReadMinusRdWrite⟩,
   ⟨az.store, fun sum c => S128Sum.fmaddS64 sum c bz.rs2MinusRamWrite⟩,
   ⟨az.addSubMul, fun sum c => S128Sum.fmaddU64 sum c bz.leftLookup⟩,
   ⟨az.notAddSubMul, fun sum c => S128Sum.fmaddS64 sum c bz.leftLookupMinusLeftInput⟩,
   ⟨az.assertFlag, fun sum c => S128Sum.fmaddS64 sum c bz.lookupOutputMinusOne⟩,
   ⟨az.shouldJump, fun sum c => S128Sum.fmaddS64 sum c bz.nextUnexpPcMinusLookupOutput⟩,
   ⟨az.virtualInstrNotLast, fun sum c => S128Sum.fmaddS64 sum c bz.nextPcMinusPcPlusOne⟩,
   ⟨az.mustStartSequence, fun sum c => S128Sum.fmaddBool sum c bz.oneMinusDoNotUpdateUnexpandedPc⟩]

def secondGroupTerms (az : AzSecondGroup) (bz : BzSecondGroup) : List (AzBzTerm 192) :=
  [⟨az.loadOrStore, fun sum c => S192Sum.fmaddI128 sum c bz.ramAddrMinusRs1PlusImm⟩,
   ⟨az.add, fun sum c => S192Sum.fmaddS160 sum c bz.rightLookupMinusAddResult⟩,
   ⟨az.sub, fun sum c => S192Sum.fmaddS160 sum c bz.rightLookupMinusSubResult⟩,
   ⟨az.mul, fun sum c => S192Sum.fmaddS160 sum c bz.rightLookupMinusProduct⟩,
   ⟨az.notAddSubMulAdvice, fun sum c => S192Sum.fmaddS160 sum c bz.rightLookupMinusRightInput⟩,
   ⟨az.writeLookupToRd, fun sum c => S192Sum.fmaddS64 sum c bz.rdWriteMinusLookupOutput⟩,
   ⟨az.writePcToRd, fun sum c => S192Sum.fmaddS64 sum c bz.rdWriteMinusPcPlusConst⟩,
   ⟨az.shouldBranch, fun sum c => S192Sum.fmaddI128 sum c bz.nextUnexpPcMinusPcPlusImm⟩,
   ⟨az.notJumpOrBranch, fun sum c => S192Sum.fmaddS64 sum c bz.nextUnexpPcMinusExpected⟩]

namespace R1CSCycleInputs

/-- The accumulators of the first group after the terms of some weights. -/
def accumulateFirstGroup (row : R1CSCycleInputs) (coeffs : List Int) : Int × S128 :=
  accumulateAzBz coeffs (firstGroupTerms row.evalAzFirstGroup row.evalBzFirstGroup)
    (0, SignedMagnitude.ofInt 128 0)

/-- The accumulators of the second group after the terms of some weights. -/
def accumulateSecondGroup (row : R1CSCycleInputs) (coeffs : List Int) : Int × S192 :=
  accumulateAzBz coeffs (secondGroupTerms row.evalAzSecondGroup row.evalBzSecondGroup)
    (0, SignedMagnitude.ofInt 192 0)

/-- `extended_azbz_product_first_group`. -/
def extendedAzbzProductFirstGroup (row : R1CSCycleInputs) (j : Nat) : Option S192 := do
  let coeffs ← coeffsPerJ[j]?
  let (az, bz) := row.accumulateFirstGroup coeffs
  .some (SignedMagnitude.mulTrunc 192 (SignedMagnitude.ofInt 64 az) bz)

/-- `extended_azbz_product_second_group`. -/
def extendedAzbzProductSecondGroup (row : R1CSCycleInputs) (j : Nat) : Option S192 := do
  let coeffs ← coeffsPerJ[j]?
  let (az, bz) := row.accumulateSecondGroup coeffs
  .some (SignedMagnitude.mulTrunc 192 (SignedMagnitude.ofInt 64 az) bz)

end R1CSCycleInputs

/-! ## What is accumulated -/

section Accumulation

variable {w bound : Nat}

/-- A term that adds the value `b`, of at most `bound`, and that is skipped
only where `b` is zero. -/
structure AzBzTerm.Exact (bound : Nat) (t : AzBzTerm w) (b : Int) : Prop where
  bounded : b.natAbs ≤ bound
  skipped : t.guard = true → b = 0
  fmadd {sum : SignedMagnitude w} {c : Int} (hc : c.natAbs < 2 ^ 31)
    (hsum : sum.toInt.natAbs + c.natAbs * bound < 2 ^ w) : (t.fmadd sum c).toInt = sum.toInt + c * b

theorem i32_eq {v : Int} (h : v.natAbs < 2 ^ 31) : i32 v = v := by
  unfold i32
  apply Int.bmod_eq_of_le <;> omega

/-- One term: both accumulators take the weight times their value. -/
theorem AzBzTerm.Exact.step_eq {t : AzBzTerm w} {b : Int} (h : t.Exact bound b)
    {s : Int × SignedMagnitude w} {c : Int} (haz : s.1.natAbs + c.natAbs < 2 ^ 31)
    (hbz : s.2.toInt.natAbs + c.natAbs * bound < 2 ^ w) :
    (t.step s c).1 = s.1 + c * (t.guard.toNat : Int) ∧ (t.step s c).2.toInt = s.2.toInt + c * b := by
  unfold AzBzTerm.step
  split_ifs with hguard
  · have hsum : (s.1 + c).natAbs ≤ s.1.natAbs + c.natAbs := Int.natAbs_add_le ..
    constructor
    · rw [i32_eq (by omega), hguard, Bool.toNat_true, Nat.cast_one, mul_one]
    · rw [h.skipped hguard, mul_zero, add_zero]
  · constructor
    · simp [hguard]
    · exact h.fmadd (by omega) hbz

/-- **The accumulators hold the weighted sums** of the guards and of the
differences, and no step leaves their widths. -/
theorem accumulateAzBz_eq {ts : List (AzBzTerm w)} {bs : List Int}
    (h : List.Forall₂ (AzBzTerm.Exact bound) ts bs) (cs : List Int) {s : Int × SignedMagnitude w}
    (haz : s.1.natAbs + magnitudes cs < 2 ^ 31)
    (hbz : s.2.toInt.natAbs + magnitudes cs * bound < 2 ^ w) :
    (accumulateAzBz cs ts s).1 = s.1 + weigh cs (ts.map fun t => (t.guard.toNat : Int)) ∧
      (accumulateAzBz cs ts s).2.toInt = s.2.toInt + weigh cs bs := by
  induction h generalizing cs s with
  | nil => cases cs <;> simp [accumulateAzBz, weigh]
  | @cons t b ts bs ht hrest ih =>
    cases cs with
    | nil => simp [accumulateAzBz, weigh]
    | cons c cs =>
      rw [magnitudes_cons] at haz hbz
      rw [Nat.add_mul] at hbz
      obtain ⟨hstep1, hstep2⟩ := ht.step_eq (s := s) (c := c) (by omega) (by omega)
      have hb1 : (t.step s c).1.natAbs ≤ s.1.natAbs + c.natAbs := by
        rw [hstep1]
        have hguard : (c * (t.guard.toNat : Int)).natAbs ≤ c.natAbs := by cases t.guard <;> simp
        exact (Int.natAbs_add_le ..).trans (Nat.add_le_add_left hguard _)
      have hb2 : (t.step s c).2.toInt.natAbs ≤ s.2.toInt.natAbs + c.natAbs * bound := by
        rw [hstep2]
        refine (Int.natAbs_add_le ..).trans (Nat.add_le_add_left ?_ _)
        rw [Int.natAbs_mul]
        exact Nat.mul_le_mul_left _ ht.bounded
      obtain ⟨ih1, ih2⟩ := ih cs (s := t.step s c) (by omega) (by omega)
      rw [List.map_cons, weigh_cons, weigh_cons, accumulateAzBz, ih1, ih2, hstep1, hstep2]
      constructor <;> ring

/-- A difference of any width that is added as it is. -/
theorem exact_fmadd {v : Nat} {guard : Bool} {term : SignedMagnitude v} {b : Int}
    (hterm : term.toInt = b) (hbound : b.natAbs ≤ bound) (hhonest : (guard.toNat : Int) * b = 0) :
    AzBzTerm.Exact bound (⟨guard, fun sum c => SignedMagnitude.fmadd sum c term⟩ : AzBzTerm w) b where
  bounded := hbound
  skipped hguard := by
    simp only at hguard
    simpa [hguard] using hhonest
  fmadd hc hsum := by
    refine (SignedMagnitude.toInt_fmadd hc ?_).trans (by rw [hterm])
    rw [hterm]
    exact (Nat.add_le_add_left (Nat.mul_le_mul_left _ hbound) _).trans_lt hsum

theorem exact_fmaddBool {guard right : Bool} (hhonest : (guard.toNat : Int) * (right.toNat : Int) = 0)
    (hbound : 1 ≤ bound) :
    AzBzTerm.Exact bound (⟨guard, fun sum c => S128Sum.fmaddBool sum c right⟩ : AzBzTerm 128)
      (right.toNat : Int) where
  bounded := by
    have hle := right.toNat_le
    omega
  skipped hguard := by
    simp only at hguard
    simpa [hguard] using hhonest
  fmadd {sum c} hc hsum := by
    cases right with
    | false => simp [S128Sum.fmaddBool]
    | true =>
      have hmul : c.natAbs * 1 ≤ c.natAbs * bound := Nat.mul_le_mul_left _ hbound
      have hadd : (sum.toInt + c).natAbs ≤ sum.toInt.natAbs + c.natAbs := Int.natAbs_add_le ..
      simp only [S128Sum.fmaddBool, if_true, SignedMagnitude.add]
      rw [SignedMagnitude.toInt_ofInt (v := c) (by omega), SignedMagnitude.toInt_ofInt (by omega)]
      simp

end Accumulation

/-! ## The groups -/

namespace R1CSCycleInputs

/-- The products of the first group vanish on its window. -/
def HonestFirstGroup (row : R1CSCycleInputs) : Prop :=
  List.Forall₂ (fun a b : Int => a * b = 0) row.evalAzFirstGroup.values row.evalBzFirstGroup.values

/-- The products of the second group vanish on its window. -/
def HonestSecondGroup (row : R1CSCycleInputs) : Prop :=
  List.Forall₂ (fun a b : Int => a * b = 0) row.evalAzSecondGroup.values row.evalBzSecondGroup.values

theorem firstGroupTerms_exact {az : AzFirstGroup} {bz : BzFirstGroup}
    (h : List.Forall₂ (fun a b : Int => a * b = 0) az.values bz.values) :
    List.Forall₂ (AzBzTerm.Exact (2 ^ 64)) (firstGroupTerms az bz) bz.values := by
  have hs64 : ∀ {guard : Bool} {d : S64}, (guard.toNat : Int) * d.toInt = 0 →
      AzBzTerm.Exact (2 ^ 64) (⟨guard, fun sum c => S128Sum.fmaddS64 sum c d⟩ : AzBzTerm 128) d.toInt :=
    fun {guard d} hd => exact_fmadd rfl d.natAbs_toInt_lt.le hd
  have hu64 : ∀ {guard : Bool} {d : U64}, (guard.toNat : Int) * (d.toNat : Int) = 0 →
      AzBzTerm.Exact (2 ^ 64) (⟨guard, fun sum c => S128Sum.fmaddU64 sum c d⟩ : AzBzTerm 128)
        (d.toNat : Int) := by
    intro guard d hd
    have hlt := d.isLt
    exact exact_fmadd (SignedMagnitude.toInt_ofInt (by omega)) (by omega) hd
  simp only [AzFirstGroup.values, BzFirstGroup.values, List.map_cons, List.map_nil,
    List.forall₂_cons, List.Forall₂.nil, and_true] at h
  obtain ⟨h0, h1, h2, h3, h4, h5, h6, h7, h8, h9⟩ := h
  exact .cons (hu64 h0) <| .cons (hs64 h1) <| .cons (hs64 h2) <| .cons (hs64 h3) <| .cons (hu64 h4) <|
    .cons (hs64 h5) <| .cons (hs64 h6) <| .cons (hs64 h7) <| .cons (hs64 h8) <|
    .cons (exact_fmaddBool h9 (by norm_num)) .nil

/-- An `i128` is within its width. -/
theorem natAbs_i128_le (v : Int) : (i128 v).natAbs ≤ 2 ^ 127 := by
  unfold i128
  have hlo := Int.le_bmod (x := v) (m := 2 ^ 128) (by norm_num)
  have hhi := Int.bmod_lt (x := v) (m := 2 ^ 128) (by norm_num)
  omega

/-- The differences of the second group are of at most `130` bits on any row. -/
theorem bzSecondGroup_bounded (row : R1CSCycleInputs) :
    ∀ b ∈ row.evalBzSecondGroup.values, b.natAbs ≤ 2 ^ 130 := by
  have hs64 : ∀ d : S64, d.toInt.natAbs ≤ 2 ^ 130 := fun d => by
    have hlt := d.natAbs_toInt_lt
    omega
  have hi128 : ∀ v : Int, (i128 v).natAbs ≤ 2 ^ 130 := fun v => by
    have hle := natAbs_i128_le v
    omega
  have hs160 : ∀ {x y : Int}, x.natAbs < 2 ^ 128 → y.natAbs < 2 ^ 128 →
      ((SignedMagnitude.ofInt 160 x).sub (SignedMagnitude.ofInt 160 y)).toInt.natAbs ≤ 2 ^ 130 := by
    intro x y hx hy
    rw [s160_sub hx hy]
    omega
  have hlookup : ((row.rightLookup.toNat : Int)).natAbs < 2 ^ 128 := by
    have hlt := row.rightLookup.isLt
    omega
  have hlt128 : ∀ v : Int, (i128 v).natAbs < 2 ^ 128 := fun v => by
    have hle := natAbs_i128_le v
    omega
  have hright : row.rightInput.toInt.natAbs < 2 ^ 128 := by
    have hlt := row.rightInput.natAbs_toInt_lt
    omega
  simp only [BzSecondGroup.values, evalBzSecondGroup, List.forall_mem_cons]
  exact ⟨hi128 _, hs160 hlookup (hlt128 _), hs160 hlookup (hlt128 _),
    hs160 hlookup row.product.natAbs_toInt_lt, hs160 hlookup hright, hs64 _, hs64 _, hi128 _, hs64 _,
    fun b hb => absurd hb List.not_mem_nil⟩

theorem secondGroupTerms_exact (row : R1CSCycleInputs) (h : row.HonestSecondGroup) :
    List.Forall₂ (AzBzTerm.Exact (2 ^ 130))
      (secondGroupTerms row.evalAzSecondGroup row.evalBzSecondGroup) row.evalBzSecondGroup.values := by
  have hbounded := row.bzSecondGroup_bounded
  have hi128 : ∀ v : Int, (i128 v).natAbs < 2 ^ 128 := fun v => by
    have hle := natAbs_i128_le v
    omega
  unfold HonestSecondGroup at h
  have haddr : row.evalBzSecondGroup.ramAddrMinusRs1PlusImm.natAbs < 2 ^ 128 := hi128 _
  have hnext : row.evalBzSecondGroup.nextUnexpPcMinusPcPlusImm.natAbs < 2 ^ 128 := hi128 _
  generalize row.evalBzSecondGroup = bz at *
  generalize row.evalAzSecondGroup = az at *
  have hs160 : ∀ {guard : Bool} {d : S160}, d.toInt.natAbs ≤ 2 ^ 130 → (guard.toNat : Int) * d.toInt = 0 →
      AzBzTerm.Exact (2 ^ 130) (⟨guard, fun sum c => S192Sum.fmaddS160 sum c d⟩ : AzBzTerm 192) d.toInt := by
    intro guard d hd hhonest
    exact exact_fmadd (SignedMagnitude.toInt_ofInt (by omega)) hd hhonest
  have hs64 : ∀ {guard : Bool} {d : S64}, d.toInt.natAbs ≤ 2 ^ 130 → (guard.toNat : Int) * d.toInt = 0 →
      AzBzTerm.Exact (2 ^ 130) (⟨guard, fun sum c => S192Sum.fmaddS64 sum c d⟩ : AzBzTerm 192) d.toInt :=
    fun {guard d} hd hhonest => exact_fmadd rfl hd hhonest
  have hint : ∀ {guard : Bool} {d : Int}, d.natAbs < 2 ^ 128 → d.natAbs ≤ 2 ^ 130 →
      (guard.toNat : Int) * d = 0 →
      AzBzTerm.Exact (2 ^ 130) (⟨guard, fun sum c => S192Sum.fmaddI128 sum c d⟩ : AzBzTerm 192) d :=
    fun {guard d} hlt hd hhonest => exact_fmadd (SignedMagnitude.toInt_ofInt hlt) hd hhonest
  simp only [AzSecondGroup.values, BzSecondGroup.values, List.map_cons, List.map_nil,
    List.forall₂_cons, List.Forall₂.nil, and_true, List.forall_mem_cons] at h hbounded
  obtain ⟨h0, h1, h2, h3, h4, h5, h6, h7, h8⟩ := h
  obtain ⟨b0, b1, b2, b3, b4, b5, b6, b7, b8, -⟩ := hbounded
  exact .cons (hint haddr b0 h0) <| .cons (hs160 b1 h1) <| .cons (hs160 b2 h2) <| .cons (hs160 b3 h3) <|
    .cons (hs160 b4 h4) <| .cons (hs64 b5 h5) <| .cons (hs64 b6 h6) <| .cons (hint hnext b7 h7) <|
    .cons (hs64 b8 h8) .nil

end R1CSCycleInputs

/-! ## The extended products -/

/-- `product` is that of the polynomials through `as` and `bs` at the target
the weights carry to, on the window of `n` nodes from `left`; a node past the
values has the value zero. -/
def ExtendedProduct (n : Nat) (coeffs : List Int) (left target : Int) (as bs : List Int) (product : Int) :
    Prop :=
  product = weigh coeffs as * weigh coeffs bs ∧
    ∀ az bz : Polynomial ℚ, az.natDegree < n → bz.natDegree < n →
      (∀ i < n, az.eval ((left + i : Int) : ℚ) = (as.getD i 0 : Int)) →
      (∀ i < n, bz.eval ((left + i : Int) : ℚ) = (bs.getD i 0 : Int)) →
      (product : ℚ) = az.eval (target : ℚ) * bz.eval (target : ℚ)

theorem extendedProduct_of_carries {n : Nat} {coeffs as bs : List Int} {left target product : Int}
    (h : Carries n coeffs left target) (has : as.length ≤ n) (hbs : bs.length ≤ n)
    (hproduct : product = weigh coeffs as * weigh coeffs bs) :
    ExtendedProduct n coeffs left target as bs product := by
  refine ⟨hproduct, fun az bz haz hbz hva hvb => ?_⟩
  rw [h.eval_eq has haz hva, h.eval_eq hbs hbz hvb, hproduct, Int.cast_mul]

/-- The accumulators hold the sums of the terms so far, within an `i32` and
within `w` bits, after any number of weights. -/
def ExactAccumulation {w : Nat} (accumulate : List Int → Int × SignedMagnitude w) (coeffs as bs : List Int) :
    Prop :=
  ∀ k, (accumulate (coeffs.take k)).1 = weigh (coeffs.take k) as ∧
    (accumulate (coeffs.take k)).2.toInt = weigh (coeffs.take k) bs ∧
    (weigh (coeffs.take k) as).natAbs < 2 ^ 31 ∧ (weigh (coeffs.take k) bs).natAbs < 2 ^ w

theorem magnitudes_take_le (cs : List Int) (k : Nat) : magnitudes (cs.take k) ≤ magnitudes cs := by
  unfold magnitudes
  rw [List.map_take]
  exact ((List.take_sublist k (cs.map Int.natAbs)).sum_le_sum fun _ _ => Nat.zero_le _)

theorem natAbs_guards_le {w : Nat} (ts : List (AzBzTerm w)) :
    ∀ a ∈ ts.map fun t => (t.guard.toNat : Int), a.natAbs ≤ 1 := by
  intro a ha
  obtain ⟨t, -, rfl⟩ := List.mem_map.mp ha
  have hle := t.guard.toNat_le
  omega

section Products

variable {w bound : Nat} {coeffs : List Int} {ts : List (AzBzTerm w)} {bs : List Int}

theorem accumulation_exact (h : List.Forall₂ (AzBzTerm.Exact bound) ts bs)
    (hcoeffs : magnitudes coeffs < 2 ^ 22) (hw : 2 ^ 22 * bound < 2 ^ w) :
    ExactAccumulation (fun cs => accumulateAzBz cs ts (0, SignedMagnitude.ofInt w 0)) coeffs
      (ts.map fun t => (t.guard.toNat : Int)) bs := by
  intro k
  have hmag : magnitudes (coeffs.take k) < 2 ^ 22 := (magnitudes_take_le coeffs k).trans_lt hcoeffs
  have hmul : magnitudes (coeffs.take k) * bound ≤ 2 ^ 22 * bound := Nat.mul_le_mul_right _ hmag.le
  have hzero : (SignedMagnitude.ofInt w 0).toInt = 0 :=
    SignedMagnitude.toInt_ofInt (Nat.two_pow_pos w)
  have hbounded : ∀ b ∈ bs, b.natAbs ≤ bound := by
    intro b hb
    obtain ⟨i, hi, rfl⟩ := List.mem_iff_getElem.mp hb
    have hget := List.forall₂_iff_get.mp h
    exact (hget.2 i (by omega) hi).bounded
  obtain ⟨haz, hbz⟩ := accumulateAzBz_eq h (coeffs.take k) (s := (0, SignedMagnitude.ofInt w 0))
    (by simpa using by omega) (by rw [hzero]; simpa using by omega)
  rw [zero_add] at haz
  rw [hzero, zero_add] at hbz
  have hle1 := natAbs_weigh_le (coeffs.take k) (natAbs_guards_le ts)
  have hle2 := natAbs_weigh_le (coeffs.take k) hbounded
  exact ⟨haz, hbz, by omega, by omega⟩

theorem product_exact (h : ExactAccumulation (fun cs => accumulateAzBz cs ts (0, SignedMagnitude.ofInt w 0))
      coeffs (ts.map fun t => (t.guard.toNat : Int)) bs)
    (hbs : ∀ b ∈ bs, b.natAbs ≤ bound) (hcoeffs : magnitudes coeffs < 2 ^ 22)
    (hp : 2 ^ 44 * bound < 2 ^ 192) :
    (SignedMagnitude.mulTrunc 192
        (SignedMagnitude.ofInt 64 (accumulateAzBz coeffs ts (0, SignedMagnitude.ofInt w 0)).1)
        (accumulateAzBz coeffs ts (0, SignedMagnitude.ofInt w 0)).2).toInt =
      weigh coeffs (ts.map fun t => (t.guard.toNat : Int)) * weigh coeffs bs := by
  obtain ⟨haz, hbz, hlt, -⟩ := h coeffs.length
  simp only [List.take_length] at haz hbz hlt
  have hle1 := natAbs_weigh_le coeffs (natAbs_guards_le ts)
  have hle2 := natAbs_weigh_le coeffs hbs
  have hmul : magnitudes coeffs * bound ≤ 2 ^ 22 * bound := Nat.mul_le_mul_right _ hcoeffs.le
  have hprod : (weigh coeffs (ts.map fun t => (t.guard.toNat : Int)) * weigh coeffs bs).natAbs < 2 ^ 192 := by
    rw [Int.natAbs_mul]
    calc _ ≤ 2 ^ 22 * (2 ^ 22 * bound) := Nat.mul_le_mul (by omega) (hle2.trans hmul)
      _ = 2 ^ 44 * bound := by ring
      _ < 2 ^ 192 := hp
  rw [SignedMagnitude.mulTrunc, haz, hbz, SignedMagnitude.toInt_ofInt (w := 64) (by omega),
    SignedMagnitude.toInt_ofInt hprod]

end Products

/-- The weights of a target. -/
theorem coeffsPerJ_get {j : Nat} (hj : j < 9) : coeffsPerJ[j]? = .some (coeffsPerJ.getD j []) := by
  have hlen : coeffsPerJ.length = 9 := by decide
  rw [List.getD_eq_getElem _ _ (by omega), List.getElem?_eq_getElem]

namespace R1CSCycleInputs

/-- The first group at a target, on a row that is honest on the window. -/
theorem firstGroup_exact {row : R1CSCycleInputs} (h : row.HonestFirstGroup) {j : Nat} (hj : j < 9) :
    ∃ product, row.extendedAzbzProductFirstGroup j = .some product ∧
      ExtendedProduct 10 (coeffsPerJ.getD j []) (baseLeft 10) (uniskipTargetsOuter.getD j 0)
        row.evalAzFirstGroup.values row.evalBzFirstGroup.values product.toInt ∧
      ExactAccumulation row.accumulateFirstGroup (coeffsPerJ.getD j []) row.evalAzFirstGroup.values
        row.evalBzFirstGroup.values := by
  obtain ⟨hcarries, hmag⟩ := coeffsPerJ_carries j hj
  have hterms := firstGroupTerms_exact h
  have hbounded : ∀ b ∈ row.evalBzFirstGroup.values, b.natAbs ≤ 2 ^ 64 := by
    intro b hb
    obtain ⟨i, hi, rfl⟩ := List.mem_iff_getElem.mp hb
    exact ((List.forall₂_iff_get.mp hterms).2 i (by rw [(List.forall₂_iff_get.mp hterms).1]; exact hi) hi).bounded
  have hacc := accumulation_exact hterms hmag (by norm_num)
  have hproduct := product_exact hacc hbounded hmag (by norm_num)
  refine ⟨_, ?_, extendedProduct_of_carries hcarries le_rfl le_rfl hproduct, hacc⟩
  simp only [extendedAzbzProductFirstGroup, coeffsPerJ_get hj, Option.bind_eq_bind, Option.bind_some]
  rfl

/-- The second group at a target, on a row that is honest on the window. -/
theorem secondGroup_exact {row : R1CSCycleInputs} (h : row.HonestSecondGroup) {j : Nat} (hj : j < 9) :
    ∃ product, row.extendedAzbzProductSecondGroup j = .some product ∧
      ExtendedProduct 10 (coeffsPerJ.getD j []) (baseLeft 10) (uniskipTargetsOuter.getD j 0)
        row.evalAzSecondGroup.values row.evalBzSecondGroup.values product.toInt ∧
      ExactAccumulation row.accumulateSecondGroup (coeffsPerJ.getD j []) row.evalAzSecondGroup.values
        row.evalBzSecondGroup.values := by
  obtain ⟨hcarries, hmag⟩ := coeffsPerJ_carries j hj
  have hterms := row.secondGroupTerms_exact h
  have hacc := accumulation_exact hterms hmag (by norm_num)
  have hproduct := product_exact hacc row.bzSecondGroup_bounded hmag (by norm_num)
  refine ⟨_, ?_, extendedProduct_of_carries hcarries (Nat.le_succ 9) (Nat.le_succ 9) hproduct, hacc⟩
  simp only [extendedAzbzProductSecondGroup, coeffsPerJ_get hj, Option.bind_eq_bind, Option.bind_some]
  rfl

end R1CSCycleInputs

/-! ## The fused product -/

/-- The inputs of the virtualized products; an instruction's right input is an
`i128`. -/
structure ProductCycleInputs where
  instructionRightInput : Int
  instructionLeftInput : U64
  shouldBranchLookupOutput : U64
  jumpFlag : Bool
  shouldBranchFlag : Bool
  notNextNoop : Bool

namespace ProductCycleInputs

/-- `from_trace`. -/
def fromTrace (cycles : List Cycle) (t : Nat) : Option ProductCycleInputs := do
  let cycle ← cycles[t]?
  let (leftInput, rightInput) ← cycle.toInstructionInputs
  let lookupOutput ← cycle.toLookupOutput
  .some {
    instructionLeftInput := leftInput
    instructionRightInput := rightInput
    shouldBranchLookupOutput := lookupOutput
    shouldBranchFlag := decide (.Branch ∈ cycle.instruction.op.instructionFlags)
    jumpFlag := cycle.instruction.circuitFlags .Jump
    notNextNoop := (cycles[t + 1]?.map fun nc =>
      !decide (.IsNoop ∈ nc.instruction.op.instructionFlags)).getD false }

/-- The left and the right factors of the three products. -/
def lefts (row : ProductCycleInputs) : List Int :=
  [row.instructionLeftInput.toNat, row.shouldBranchLookupOutput.toNat, row.jumpFlag.toNat]

def rights (row : ProductCycleInputs) : List Int :=
  [row.instructionRightInput, row.shouldBranchFlag.toNat, row.notNextNoop.toNat]

/-- The factors under the weights, each an `i128`. -/
def leftWeighted (row : ProductCycleInputs) (c : List Int) : List Int :=
  [i128 (c.getD 0 0 * row.instructionLeftInput.toNat),
   i128 (c.getD 1 0 * row.shouldBranchLookupOutput.toNat),
   if row.jumpFlag then c.getD 2 0 else 0]

def rightWeighted (row : ProductCycleInputs) (c : List Int) : List Int :=
  [i128 (c.getD 0 0 * row.instructionRightInput),
   if row.shouldBranchFlag then c.getD 1 0 else 0,
   if row.notNextNoop then c.getD 2 0 else 0]

/-- The loop that sums the weighted factors. -/
def sumI128 : Int → List Int → Int
  | sum, [] => sum
  | sum, v :: vs => sumI128 (i128 (sum + v)) vs

/-- `extended_fused_product_at_j`. -/
def extendedFusedProductAtJ (row : ProductCycleInputs) (j : Nat) : Option S256 := do
  let c ← productVirtualCoeffsPerJ[j]?
  let leftSum := sumI128 0 (row.leftWeighted c)
  let rightSum := sumI128 0 (row.rightWeighted c)
  .some (SignedMagnitude.mulTrunc 256 (SignedMagnitude.ofInt 128 leftSum) (SignedMagnitude.ofInt 128 rightSum))

theorem natAbs_toInstructionInputs {c : Cycle} {left : U64} {right : Int}
    (h : c.toInstructionInputs = .some (left, right)) : right.natAbs ≤ 2 ^ 64 := by
  have hnat : ∀ v : U64, ((v.toNat : Int)).natAbs ≤ 2 ^ 64 := fun v => by
    have hlt := v.isLt
    omega
  have hint : ∀ v : U64, v.toInt.natAbs ≤ 2 ^ 64 := fun v => by
    have hlt := BitVec.toInt_lt (x := v)
    have hle := BitVec.le_toInt v
    omega
  have hright : ∀ {l : U64} {r : Int}, Option.some (l, r) = .some (left, right) → r.natAbs ≤ 2 ^ 64 →
      right.natAbs ≤ 2 ^ 64 := by
    intro l r heq hr
    cases heq
    exact hr
  unfold Cycle.toInstructionInputs at h
  split at h
  all_goals first
    | exact hright h (hnat _)
    | exact hright h (hint _)
    | exact hright h (by norm_num)
    | (split at h <;> first | exact hright h (hnat _) | exact hright h (by norm_num))
    | cases h

/-- The right input of a row of a trace is of a word and a sign. -/
theorem natAbs_rightInput {cycles : List Cycle} {t : Nat} {row : ProductCycleInputs}
    (h : fromTrace cycles t = .some row) : row.instructionRightInput.natAbs ≤ 2 ^ 64 := by
  obtain ⟨cycle, -, h⟩ := Option.bind_eq_some_iff.mp h
  obtain ⟨⟨left, right⟩, hinputs, h⟩ := Option.bind_eq_some_iff.mp h
  obtain ⟨output, -, h⟩ := Option.bind_eq_some_iff.mp h
  obtain rfl := Option.some.inj h
  exact natAbs_toInstructionInputs hinputs

/-- Small values sum without a cut. -/
theorem sumI128_eq {vs : List Int} {sum : Int} (h : sum.natAbs + magnitudes vs < 2 ^ 127) :
    sumI128 sum vs = sum + vs.sum := by
  induction vs generalizing sum with
  | nil => simp [sumI128]
  | cons v vs ih =>
    rw [magnitudes_cons] at h
    have hadd : (sum + v).natAbs ≤ sum.natAbs + v.natAbs := Int.natAbs_add_le ..
    have hcut : i128 (sum + v) = sum + v := i128_eq (by omega) (by omega)
    rw [sumI128, hcut, ih (by omega), List.sum_cons]
    ring

/-- Weighted factors of at most 64 bits and a sign are exact, and so is their sum. -/
theorem sum_weighted {c0 c1 c2 v0 v1 v2 : Int} (hc : c0.natAbs + c1.natAbs + c2.natAbs < 2 ^ 22)
    (h0 : v0.natAbs ≤ 2 ^ 64) (h1 : v1.natAbs ≤ 2 ^ 64) (h2 : v2.natAbs ≤ 2 ^ 64) :
    i128 (c0 * v0) = c0 * v0 ∧ i128 (c1 * v1) = c1 * v1 ∧
      sumI128 0 [c0 * v0, c1 * v1, c2 * v2] = weigh [c0, c1, c2] [v0, v1, v2] ∧
      (weigh [c0, c1, c2] [v0, v1, v2]).natAbs < 2 ^ 127 := by
  have hprod : ∀ {c v : Int}, v.natAbs ≤ 2 ^ 64 → (c * v).natAbs ≤ c.natAbs * 2 ^ 64 := by
    intro c v hv
    rw [Int.natAbs_mul]
    exact Nat.mul_le_mul_left _ hv
  have hp0 := hprod (c := c0) h0
  have hp1 := hprod (c := c1) h1
  have hp2 := hprod (c := c2) h2
  have hsum : weigh [c0, c1, c2] [v0, v1, v2] = 0 + [c0 * v0, c1 * v1, c2 * v2].sum := by
    simp [weigh]
  refine ⟨i128_eq (by omega) (by omega), i128_eq (by omega) (by omega), ?_, ?_⟩
  · rw [hsum]
    refine sumI128_eq ?_
    simp only [magnitudes, List.map_cons, List.map_nil, List.sum_cons, List.sum_nil, Int.natAbs_zero]
    omega
  · rw [hsum]
    simp only [List.sum_cons, List.sum_nil]
    omega

theorem productVirtualCoeffsPerJ_get {j : Nat} (hj : j < 2) :
    productVirtualCoeffsPerJ[j]? = .some (productVirtualCoeffsPerJ.getD j []) := by
  have hlen : productVirtualCoeffsPerJ.length = 2 := by decide
  rw [List.getD_eq_getElem _ _ (by omega), List.getElem?_eq_getElem]

/-- The fused product at a target, on a row of a trace. -/
theorem fusedProduct_exact {row : ProductCycleInputs} (h : row.instructionRightInput.natAbs ≤ 2 ^ 64)
    {j : Nat} (hj : j < 2) :
    ∃ product, row.extendedFusedProductAtJ j = .some product ∧
      ExtendedProduct 3 (productVirtualCoeffsPerJ.getD j []) (baseLeft 3) ((uniskipTargets 3 2).getD j 0)
        row.lefts row.rights product.toInt := by
  obtain ⟨hcarries, hmag⟩ := productVirtualCoeffsPerJ_carries j hj
  have hget := productVirtualCoeffsPerJ_get hj
  generalize productVirtualCoeffsPerJ.getD j [] = c at *
  obtain ⟨c0, c1, c2, rfl⟩ := List.length_eq_three.mp hcarries.1
  have hbool : ∀ b : Bool, ((b.toNat : Int)).natAbs ≤ 2 ^ 64 := fun b => by
    have hle := b.toNat_le
    omega
  have hword : ∀ v : U64, ((v.toNat : Int)).natAbs ≤ 2 ^ 64 := fun v => by
    have hlt := v.isLt
    omega
  have hflag : ∀ (b : Bool) (c : Int), (if b then c else 0) = c * (b.toNat : Int) := by
    intro b c
    cases b <;> simp
  have hc : c0.natAbs + c1.natAbs + c2.natAbs < 2 ^ 22 := by
    simpa [magnitudes, Nat.add_assoc] using hmag
  obtain ⟨l0, l1, lsum, llt⟩ := sum_weighted hc (hword row.instructionLeftInput)
    (hword row.shouldBranchLookupOutput) (hbool row.jumpFlag)
  obtain ⟨r0, -, rsum, rlt⟩ := sum_weighted hc h (hbool row.shouldBranchFlag) (hbool row.notNextNoop)
  have hleft : sumI128 0 (row.leftWeighted [c0, c1, c2]) = weigh [c0, c1, c2] row.lefts := by
    refine Eq.trans ?_ lsum
    simp only [leftWeighted, List.getD_cons_zero, List.getD_cons_succ, hflag, l0, l1]
  have hright : sumI128 0 (row.rightWeighted [c0, c1, c2]) = weigh [c0, c1, c2] row.rights := by
    refine Eq.trans ?_ rsum
    simp only [rightWeighted, List.getD_cons_zero, List.getD_cons_succ, hflag, r0]
  have hproduct : (weigh [c0, c1, c2] row.lefts * weigh [c0, c1, c2] row.rights).natAbs < 2 ^ 256 := by
    rw [Int.natAbs_mul]
    calc _ ≤ 2 ^ 127 * 2 ^ 127 := Nat.mul_le_mul llt.le rlt.le
      _ < 2 ^ 256 := by norm_num
  refine ⟨_, ?_, extendedProduct_of_carries hcarries le_rfl le_rfl (SignedMagnitude.toInt_ofInt hproduct)⟩
  have hl : (SignedMagnitude.ofInt 128 (weigh [c0, c1, c2] row.lefts)).toInt = weigh [c0, c1, c2] row.lefts :=
    SignedMagnitude.toInt_ofInt (llt.trans (by norm_num))
  have hr : (SignedMagnitude.ofInt 128 (weigh [c0, c1, c2] row.rights)).toInt =
      weigh [c0, c1, c2] row.rights := SignedMagnitude.toInt_ofInt (rlt.trans (by norm_num))
  simp only [extendedFusedProductAtJ, hget, Option.bind_eq_bind, Option.bind_some, hleft, hright,
    SignedMagnitude.mulTrunc, hl, hr]

end ProductCycleInputs

/-- **The extended evaluations are exact.** On a row whose products vanish on
the window, the product a group returns at a target is that of the weighted
sums, which is that of the polynomials through `Az` and `Bz` there, and its
accumulators hold the sums of the terms so far at every step. On a row that is
one of a trace `Az` and `Bz` are the combinations of the constraints, and the
fused product is exact as well. -/
theorem extendedProducts_exact :
    (∀ (row : R1CSCycleInputs) (j : Nat), row.HonestFirstGroup → j < 9 →
      ∃ product, row.extendedAzbzProductFirstGroup j = .some product ∧
        ExtendedProduct 10 (coeffsPerJ.getD j []) (baseLeft 10) (uniskipTargetsOuter.getD j 0)
          row.evalAzFirstGroup.values row.evalBzFirstGroup.values product.toInt ∧
        ExactAccumulation row.accumulateFirstGroup (coeffsPerJ.getD j []) row.evalAzFirstGroup.values
          row.evalBzFirstGroup.values) ∧
    (∀ (row : R1CSCycleInputs) (j : Nat), row.HonestSecondGroup → j < 9 →
      ∃ product, row.extendedAzbzProductSecondGroup j = .some product ∧
        ExtendedProduct 10 (coeffsPerJ.getD j []) (baseLeft 10) (uniskipTargetsOuter.getD j 0)
          row.evalAzSecondGroup.values row.evalBzSecondGroup.values product.toInt ∧
        ExactAccumulation row.accumulateSecondGroup (coeffsPerJ.getD j []) row.evalAzSecondGroup.values
          row.evalBzSecondGroup.values) ∧
    (∀ row : R1CSCycleInputs, row.Valid →
      row.evalAzFirstGroup.values = row.tableA r1csConstraintsFirstGroup ∧
      row.evalBzFirstGroup.values = row.tableB r1csConstraintsFirstGroup ∧
      row.evalAzSecondGroup.values = row.tableA r1csConstraintsSecondGroup ∧
      row.evalBzSecondGroup.values = row.tableB r1csConstraintsSecondGroup) ∧
    (∀ (cycles : List Cycle) (t j : Nat) (row : ProductCycleInputs),
      ProductCycleInputs.fromTrace cycles t = .some row → j < 2 →
      ∃ product, row.extendedFusedProductAtJ j = .some product ∧
        ExtendedProduct 3 (productVirtualCoeffsPerJ.getD j []) (baseLeft 3)
          ((uniskipTargets 3 2).getD j 0) row.lefts row.rights product.toInt) :=
  ⟨fun _ _ h hj => R1CSCycleInputs.firstGroup_exact h hj,
    fun _ _ h hj => R1CSCycleInputs.secondGroup_exact h hj,
    fun _ h => ⟨R1CSCycleInputs.azFirstGroup_eq h, R1CSCycleInputs.bzFirstGroup_eq h,
      R1CSCycleInputs.azSecondGroup_eq h, R1CSCycleInputs.bzSecondGroup_eq h⟩,
    fun _ _ _ _ h hj => ProductCycleInputs.fusedProduct_exact (ProductCycleInputs.natAbs_rightInput h) hj⟩

/-- The row of a load of `7` from address `16`. -/
def loadRow : R1CSCycleInputs where
  leftInput := 0
  rightInput := SignedMagnitude.ofInt 64 0
  product := SignedMagnitude.ofInt 128 0
  leftLookup := 0
  rightLookup := 0
  lookupOutput := 0
  rs1ReadValue := 16
  rs2ReadValue := 0
  rdWriteValue := 7
  ramAddr := 16
  ramReadValue := 7
  ramWriteValue := 7
  pc := 1
  nextPc := 2
  unexpandedPc := 0x80000000
  nextUnexpandedPc := 0x80000004
  imm := SignedMagnitude.ofInt 64 0
  flags := fun flag => flag = .Load
  nextIsNoop := false
  shouldJump := false
  shouldBranch := false
  nextIsVirtual := false
  nextIsFirstInSequence := false

theorem extendedProducts_exact_load : loadRow.HonestFirstGroup ∧ (0 : Nat) < 9 ∧
    ∃ product, loadRow.extendedAzbzProductFirstGroup 0 = .some product ∧
      ExtendedProduct 10 (coeffsPerJ.getD 0 []) (baseLeft 10) (uniskipTargetsOuter.getD 0 0)
        loadRow.evalAzFirstGroup.values loadRow.evalBzFirstGroup.values product.toInt ∧
      ExactAccumulation loadRow.accumulateFirstGroup (coeffsPerJ.getD 0 [])
        loadRow.evalAzFirstGroup.values loadRow.evalBzFirstGroup.values := by
  have h : loadRow.HonestFirstGroup := by
    unfold R1CSCycleInputs.HonestFirstGroup
    decide
  exact ⟨h, by decide, extendedProducts_exact.1 loadRow 0 h (by decide)⟩

end LightningJolt
