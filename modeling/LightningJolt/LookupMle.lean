/-
The MLEs of the lookup tables (`jolt-core/src/zkvm/lookup_table`): the formula of
each table over the coordinates of a point, and that it is multilinear.
-/
import LightningJolt.EqIndex
import LightningJolt.LookupTable
import LightningJolt.Transcript

namespace LightningJolt

open Finset

/-! ## The formulas -/

namespace LookupMle

variable {F : Type} [CommRing F]

/-- `x_i * y_i + (1 - x_i) * (1 - y_i)`, of the operands' bits `i`. -/
def eqBit (r : Nat → F) (i : Nat) : F :=
  r (2 * i) * r (2 * i + 1) + (1 - r (2 * i)) * (1 - r (2 * i + 1))

def xorBit (r : Nat → F) (i : Nat) : F :=
  (1 - r (2 * i)) * r (2 * i + 1) + r (2 * i) * (1 - r (2 * i + 1))

/-- `lt` and `eq` after `n` rounds of the loop of the comparisons. -/
def compareLoop (r : Nat → F) : Nat → F × F
  | 0 => (0, 1)
  | i + 1 =>
    let (lt, eq) := compareLoop r i
    (lt + (1 - r (2 * i)) * r (2 * i + 1) * eq, eq * eqBit r i)

/-- `result` after `n` rounds of the loop of the right shifts. -/
def shiftMle (r : Nat → F) : Nat → F
  | 0 => 0
  | i + 1 => shiftMle r i * (1 + r (2 * i + 1)) + r (2 * i) * r (2 * i + 1)

/-- `first_sum`, `second_sum` and `prod_one_plus_y` of the rotations after `n` rounds, the
first `skip` pairs left out. -/
def rotateMle (r : Nat → F) (skip : Nat) : Nat → F × F × F
  | 0 => (0, 0, 1)
  | n + 1 =>
    let (firstSum, secondSum, prodOnePlusY) := rotateMle r skip n
    let i := skip + n
    (firstSum * (1 + r (2 * i + 1)) + r (2 * i) * r (2 * i + 1),
      secondSum + r (2 * i) * (1 - r (2 * i + 1)) * prodOnePlusY * 2 ^ (63 - i),
      prodOnePlusY * (1 + r (2 * i + 1)))

/-- The byte `k` of the second operand, the lowest first, as `VirtualRev8WTable` takes them. -/
def byteMle (r : Nat → F) (k : Nat) : F := ∑ i ∈ range 8, r (127 - (8 * k + i)) * 2 ^ i

/-- The place each byte of the result comes from. -/
def rev8wByte (j : Nat) : Nat := if j < 4 then 3 - j else 11 - j

end LookupMle

open LookupMle in
/-- The formula of `evaluate_mle` over the coordinates, the most significant first. -/
def LookupTables.mle {F : Type} [CommRing F] (table : LookupTables) (r : Nat → F) : F :=
  match table with
  | .RangeCheck => ∑ i ∈ range 64, 2 ^ (63 - i) * r (64 + i)
  | .RangeCheckAligned => ∑ i ∈ range 63, 2 ^ (63 - i) * r (64 + i)
  | .And => ∑ i ∈ range 64, 2 ^ (63 - i) * r (2 * i) * r (2 * i + 1)
  | .Andn => ∑ i ∈ range 64, 2 ^ (63 - i) * r (2 * i) * (1 - r (2 * i + 1))
  | .Or => ∑ i ∈ range 64, 2 ^ (63 - i) * (r (2 * i) + r (2 * i + 1) - r (2 * i) * r (2 * i + 1))
  | .Xor => ∑ i ∈ range 64, 2 ^ (63 - i) * xorBit r i
  | .Equal => ∏ i ∈ range 64, eqBit r i
  | .SignedGreaterThanEqual => 1 - (r 0 - r 1 + (compareLoop r 64).1)
  | .UnsignedGreaterThanEqual => 1 - (compareLoop r 64).1
  | .NotEqual => 1 - ∏ i ∈ range 64, eqBit r i
  | .SignedLessThan => r 0 - r 1 + (compareLoop r 64).1
  | .UnsignedLessThan => (compareLoop r 64).1
  | .Movsign => r 0 * (2 ^ 64 - 1)
  | .UpperWord => ∑ i ∈ range 64, 2 ^ (63 - i) * r i
  | .LessThanEqual => (compareLoop r 64).1 + (compareLoop r 64).2
  | .ValidUnsignedRemainder => (compareLoop r 64).1 + ∏ i ∈ range 64, (1 - r (2 * i + 1))
  | .ValidDiv0 => 1 - ∏ i ∈ range 64, (1 - r (2 * i)) +
      ∏ i ∈ range 64, (1 - r (2 * i)) * r (2 * i + 1)
  | .HalfwordAlignment => 1 - r 127
  | .WordAlignment => (1 - r 127) * (1 - r 126)
  | .LowerHalfWord => ∑ i ∈ range 32, 2 ^ (31 - i) * r (96 + i)
  | .SignExtendHalfWord => ∑ i ∈ range 32, 2 ^ (31 - i) * r (96 + i) +
      (∑ i ∈ range 32, 2 ^ (31 - i) * r 96) * 2 ^ 32
  | .Pow2 => ∏ i ∈ range 6, (1 + (2 ^ 2 ^ i - 1) * r (127 - i))
  | .Pow2W => ∏ i ∈ range 5, (1 + (2 ^ 2 ^ i - 1) * r (127 - i))
  | .ShiftRightBitmask => ∑ s ∈ range 64, (2 ^ (64 - s) - 1) * 2 ^ s *
      ∏ i ∈ range 6, if s.testBit i then r (127 - i) else 1 - r (127 - i)
  | .VirtualRev8W => ∑ j ∈ range 8, byteMle r (rev8wByte j) * 2 ^ (8 * j)
  | .VirtualSRL => shiftMle r 64
  | .VirtualSRA => shiftMle r 64 +
      r 0 * ∑ i ∈ range 64, if i = 0 then 0 else 2 ^ i * (1 - r (2 * i + 1))
  | .VirtualROTR => (rotateMle r 0 64).1 + (rotateMle r 0 64).2.1
  | .VirtualROTRW => (rotateMle r 32 32).1 + (rotateMle r 32 32).2.1
  | .VirtualChangeDivisor => ∑ i ∈ range 64, 2 ^ (63 - i) * r (2 * i + 1) +
      (r 0 * ∏ i ∈ range 63, (1 - r (2 * (i + 1)))) * (∏ i ∈ range 64, r (2 * i + 1)) * (2 - 2 ^ 64)
  | .VirtualChangeDivisorW => ∑ i ∈ range 32, 2 ^ (31 - i) * r (2 * (32 + i) + 1) +
      (2 - 2 ^ 64) * (r 64 * ∏ i ∈ range 31, (1 - r (2 * (33 + i)))) *
        (∏ i ∈ range 32, r (2 * (32 + i) + 1)) + (2 ^ 64 - 2 ^ 32) * r 65
  | .MulUNoOverflow => ∏ i ∈ range 64, (1 - r i)
  | .VirtualXORROT rotation =>
    ∑ i ∈ range 64, 2 ^ (63 - (i + rotation) % 64) * xorBit r i
  | .VirtualXORROTW rotation =>
    ∑ i ∈ range 32, 2 ^ (31 - (i + rotation) % 32) * xorBit r (32 + i)

/-- `evaluate_mle`. -/
def LookupTables.evaluateMle {F C : Type} [CommRing F] [Challenge C F] (table : LookupTables)
    (r : List C) : F :=
  table.mle fun i => (r.map (Challenge.into : C → F)).getD i 0

/-! ## Multilinear functions -/

section Multilinear

variable {F : Type} [CommRing F]

/-- A function of the coordinates in `S` alone that is affine in each of them. -/
structure MultilinearOn (S : Nat → Prop) (f : (Nat → F) → F) : Prop where
  indep : ∀ w k x, ¬ S k → f (Function.update w k x) = f w
  affine : ∀ w k, ∃ a b : F, ∀ x, f (Function.update w k x) = a + b * x

namespace MultilinearOn

variable {S T : Nat → Prop} {f g : (Nat → F) → F}

theorem const (c : F) : MultilinearOn S fun _ => c where
  indep _ _ _ _ := rfl
  affine _ _ := ⟨c, 0, fun x => by rw [zero_mul, add_zero]⟩

theorem coord {k : Nat} (hk : S k) : MultilinearOn S fun w : Nat → F => w k where
  indep w j x hj := Function.update_of_ne (fun hkj : k = j => hj (hkj ▸ hk)) _ _
  affine w j := by
    by_cases hjk : k = j
    · refine ⟨0, 1, fun x => ?_⟩
      rw [hjk, Function.update_self, zero_add, one_mul]
    · refine ⟨w k, 0, fun x => ?_⟩
      rw [Function.update_of_ne hjk, zero_mul, add_zero]

theorem mono (hf : MultilinearOn S f) (h : ∀ k, S k → T k) : MultilinearOn T f where
  indep w k x hk := hf.indep w k x fun hS => hk (h k hS)
  affine := hf.affine

theorem add (hf : MultilinearOn S f) (hg : MultilinearOn S g) :
    MultilinearOn S fun w => f w + g w where
  indep w k x hk := by rw [hf.indep w k x hk, hg.indep w k x hk]
  affine w k := by
    obtain ⟨a, b, hab⟩ := hf.affine w k
    obtain ⟨c, d, hcd⟩ := hg.affine w k
    refine ⟨a + c, b + d, fun x => ?_⟩
    rw [hab, hcd]
    ring

theorem constMul (c : F) (hf : MultilinearOn S f) : MultilinearOn S fun w => c * f w where
  indep w k x hk := by rw [hf.indep w k x hk]
  affine w k := by
    obtain ⟨a, b, hab⟩ := hf.affine w k
    refine ⟨c * a, c * b, fun x => ?_⟩
    rw [hab]
    ring

theorem sub (hf : MultilinearOn S f) (hg : MultilinearOn S g) :
    MultilinearOn S fun w => f w - g w := by
  have h := hf.add (hg.constMul (-1))
  simp only [neg_one_mul, ← sub_eq_add_neg] at h
  exact h

/-- Functions of different coordinates multiply. -/
theorem mul (hf : MultilinearOn S f) (hg : MultilinearOn T g) (h : ∀ k, S k → ¬ T k) :
    MultilinearOn (fun k => S k ∨ T k) fun w => f w * g w where
  indep w k x hk := by
    rw [hf.indep w k x fun hS => hk (.inl hS), hg.indep w k x fun hT => hk (.inr hT)]
  affine w k := by
    by_cases hS : S k
    · obtain ⟨a, b, hab⟩ := hf.affine w k
      refine ⟨a * g w, b * g w, fun x => ?_⟩
      rw [hab, hg.indep w k x (h k hS)]
      ring
    · obtain ⟨a, b, hab⟩ := hg.affine w k
      refine ⟨f w * a, f w * b, fun x => ?_⟩
      rw [hab, hf.indep w k x hS]
      ring

theorem sum {n : Nat} {f : Nat → (Nat → F) → F} (h : ∀ i < n, MultilinearOn S (f i)) :
    MultilinearOn S fun w => ∑ i ∈ range n, f i w := by
  induction n with
  | zero => exact const 0
  | succ n ih =>
    simp only [sum_range_succ]
    exact (ih fun i hi => h i (Nat.lt_succ_of_lt hi)).add (h n (Nat.lt_succ_self n))

/-- A product whose factors read one part of the coordinates each, told apart by `part`. -/
theorem prod (part : Nat → Nat) {f : Nat → (Nat → F) → F} {n : Nat}
    (h : ∀ i < n, MultilinearOn (fun k => part k = i) (f i)) :
    MultilinearOn (fun k => part k < n) fun w => ∏ i ∈ range n, f i w := by
  induction n with
  | zero => exact const 1
  | succ n ih =>
    simp only [prod_range_succ]
    refine ((ih fun i hi => h i (Nat.lt_succ_of_lt hi)).mul (h n (Nat.lt_succ_self n))
      fun k hk => by omega).mono fun k hk => by omega

/-- A product of functions of one coordinate each, no two the same. -/
theorem prodCoords {g : Nat → Nat} (hg : Function.Injective g) {f : Nat → (Nat → F) → F} (n : Nat)
    (h : ∀ i < n, MultilinearOn (· = g i) (f i)) :
    MultilinearOn (fun k => ∃ i < n, k = g i) fun w => ∏ i ∈ range n, f i w := by
  induction n with
  | zero => exact const 1
  | succ n ih =>
    simp only [prod_range_succ]
    refine ((ih fun i hi => h i (Nat.lt_succ_of_lt hi)).mul (h n (Nat.lt_succ_self n)) ?_).mono ?_
    · rintro k ⟨i, hi, rfl⟩ heq
      exact absurd (hg heq) (Nat.ne_of_lt hi)
    · rintro k (⟨i, hi, rfl⟩ | rfl)
      · exact ⟨i, Nat.lt_succ_of_lt hi, rfl⟩
      · exact ⟨n, Nat.lt_succ_self n, rfl⟩

/-- A function of one coordinate. -/
theorem of_coord {k : Nat} (a b : F) (h : ∀ w, f w = a + b * w k) : MultilinearOn (· = k) f := by
  have heq : f = fun w => a + b * w k := funext h
  rw [heq]
  exact (const a).add ((coord (S := (· = k)) rfl).constMul b)

/-- A function of the bits `i` of the two operands. -/
theorem of_pair {i : Nat} (a b c d : F)
    (h : ∀ w, f w = a + b * w (2 * i) + c * w (2 * i + 1) + d * (w (2 * i) * w (2 * i + 1))) :
    MultilinearOn (fun k => k / 2 = i) f := by
  have heq : f = fun w : Nat → F =>
      a + b * w (2 * i) + c * w (2 * i + 1) + d * (w (2 * i) * w (2 * i + 1)) := funext h
  have hx : MultilinearOn (fun k => k / 2 = i) fun w : Nat → F => w (2 * i) := coord (by omega)
  have hy : MultilinearOn (fun k => k / 2 = i) fun w : Nat → F => w (2 * i + 1) := coord (by omega)
  have hxy : MultilinearOn (fun k => k / 2 = i) fun w : Nat → F => w (2 * i) * w (2 * i + 1) :=
    ((coord (S := (· = 2 * i)) rfl).mul (coord (S := (· = 2 * i + 1)) rfl) fun k hk => by
      omega).mono fun k hk => by omega
  rw [heq]
  exact (((const a).add (hx.constMul b)).add (hy.constMul c)).add (hxy.constMul d)

end MultilinearOn

/-! ## The tables -/

namespace LookupMle

open MultilinearOn

theorem eqBit_multilinear (i : Nat) : MultilinearOn (fun k => k / 2 = i) fun r : Nat → F => eqBit r i :=
  of_pair 1 (-1) (-1) 2 fun r => by
    rw [eqBit]
    ring

theorem xorBit_multilinear (i : Nat) :
    MultilinearOn (fun k => k / 2 = i) fun r : Nat → F => xorBit r i :=
  of_pair 0 1 1 (-2) fun r => by
    rw [xorBit]
    ring

theorem compareLoop_multilinear (n : Nat) :
    MultilinearOn (fun k => k / 2 < n) (fun r : Nat → F => (compareLoop r n).1) ∧
      MultilinearOn (fun k => k / 2 < n) fun r : Nat → F => (compareLoop r n).2 := by
  induction n with
  | zero => exact ⟨const 0, const 1⟩
  | succ n ih =>
    obtain ⟨hlt, heq⟩ := ih
    have hdisjoint : ∀ k, k / 2 = n → ¬ k / 2 < n := fun k hk => by omega
    have hbit : MultilinearOn (fun k => k / 2 = n) fun r : Nat → F =>
        (1 - r (2 * n)) * r (2 * n + 1) :=
      of_pair 0 0 1 (-1) fun r => by ring
    refine ⟨?_, ?_⟩
    · exact (hlt.mono fun k hk => by omega).add
        ((hbit.mul heq hdisjoint).mono fun k hk => by omega)
    · exact (heq.mul (eqBit_multilinear n) fun k hk => by omega).mono fun k hk => by omega

theorem shiftMle_multilinear (n : Nat) :
    MultilinearOn (fun k => k / 2 < n) fun r : Nat → F => shiftMle r n := by
  induction n with
  | zero => exact const 0
  | succ n ih =>
    have hfactor : MultilinearOn (fun k => k / 2 = n) fun r : Nat → F => 1 + r (2 * n + 1) :=
      of_pair 1 0 1 0 fun r => by ring
    have hbit : MultilinearOn (fun k => k / 2 = n) fun r : Nat → F => r (2 * n) * r (2 * n + 1) :=
      of_pair 0 0 0 1 fun r => by ring
    exact ((ih.mul hfactor fun k hk => by omega).mono fun k hk => by omega).add
      (hbit.mono fun k hk => by omega)

theorem rotateMle_multilinear (skip n : Nat) :
    MultilinearOn (fun k => k / 2 < skip + n) (fun r : Nat → F => (rotateMle r skip n).1) ∧
      MultilinearOn (fun k => k / 2 < skip + n) (fun r : Nat → F => (rotateMle r skip n).2.1) ∧
      MultilinearOn (fun k => k / 2 < skip + n) fun r : Nat → F => (rotateMle r skip n).2.2 := by
  induction n with
  | zero => exact ⟨const 0, const 0, const 1⟩
  | succ n ih =>
    obtain ⟨hfirst, hsecond, hprod⟩ := ih
    have hfactor : MultilinearOn (fun k => k / 2 = skip + n) fun r : Nat → F =>
        1 + r (2 * (skip + n) + 1) := of_pair 1 0 1 0 fun r => by ring
    have hboth : MultilinearOn (fun k => k / 2 = skip + n) fun r : Nat → F =>
        r (2 * (skip + n)) * r (2 * (skip + n) + 1) := of_pair 0 0 0 1 fun r => by ring
    have hclear : MultilinearOn (fun k => k / 2 = skip + n) fun r : Nat → F =>
        r (2 * (skip + n)) * (1 - r (2 * (skip + n) + 1)) := of_pair 0 1 0 (-1) fun r => by ring
    have hdisjoint : ∀ k, k / 2 = skip + n → ¬ k / 2 < skip + n := fun k hk => by omega
    have hdisjoint' : ∀ k, k / 2 < skip + n → ¬ k / 2 = skip + n := fun k hk => by omega
    refine ⟨?_, ?_, ?_⟩
    · exact ((hfirst.mul hfactor hdisjoint').mono fun k hk => by omega).add
        (hboth.mono fun k hk => by omega)
    · have hterm := ((hclear.mul hprod hdisjoint).constMul (2 ^ (63 - (skip + n)))).mono
        (T := fun k => k / 2 < skip + (n + 1)) fun k hk => by omega
      simp only [mul_comm ((2 : F) ^ (63 - (skip + n)))] at hterm
      exact (hsecond.mono fun k hk => by omega).add hterm
    · exact (hprod.mul hfactor hdisjoint').mono fun k hk => by omega

theorem byteMle_multilinear (j : Nat) : MultilinearOn (fun _ => True) fun r : Nat → F => byteMle r j := by
  refine MultilinearOn.sum fun i _ => ?_
  have h := ((coord (S := fun _ => True) trivial :
    MultilinearOn _ fun r : Nat → F => r (127 - (8 * j + i))).constMul (2 ^ i))
  simp only [mul_comm ((2 : F) ^ i)] at h
  exact h

/-- A sum of coordinates, each with its own weight. -/
theorem weighted_multilinear (n : Nat) (c : Nat → F) (g : Nat → Nat) :
    MultilinearOn (fun _ => True) fun r : Nat → F => ∑ i ∈ range n, c i * r (g i) :=
  MultilinearOn.sum fun _ _ => (coord trivial).constMul _

/-- A sum over the bits of the operands. -/
theorem pairSum_multilinear {n : Nat} {f : Nat → (Nat → F) → F} {g : Nat → Nat}
    (h : ∀ i < n, MultilinearOn (fun k => k / 2 = g i) (f i)) :
    MultilinearOn (fun _ => True) fun r : Nat → F => ∑ i ∈ range n, f i r :=
  MultilinearOn.sum fun i hi => (h i hi).mono fun _ _ => trivial

theorem oneSub_multilinear (k : Nat) : MultilinearOn (· = k) fun r : Nat → F => 1 - r k :=
  of_coord 1 (-1) fun r => by ring

end LookupMle

open LookupMle MultilinearOn in
/-- **Every formula is multilinear in the coordinates.** -/
theorem LookupTables.mle_multilinear (table : LookupTables) :
    MultilinearOn (fun _ => True) (table.mle : (Nat → F) → F) := by
  have hall {S : Nat → Prop} {f : (Nat → F) → F} (h : MultilinearOn S f) :
      MultilinearOn (fun _ => True) f := h.mono fun _ _ => trivial
  have heq : MultilinearOn (fun _ => True) fun r : Nat → F => ∏ i ∈ range 64, eqBit r i :=
    hall (MultilinearOn.prod (· / 2) fun i _ => eqBit_multilinear i)
  have hlt : MultilinearOn (fun _ => True) fun r : Nat → F => (compareLoop r 64).1 :=
    hall (compareLoop_multilinear 64).1
  have hcoord (k : Nat) : MultilinearOn (fun _ => True) fun r : Nat → F => r k := coord trivial
  have hone : MultilinearOn (fun _ => True) fun _ : Nat → F => (1 : F) := const 1
  have hx0 (i : Nat) : MultilinearOn (fun k => k = 2 * i) fun r : Nat → F => 1 - r (2 * i) :=
    oneSub_multilinear (2 * i)
  unfold LookupTables.mle
  cases table with
  | RangeCheck | RangeCheckAligned | UpperWord | LowerHalfWord => exact weighted_multilinear _ _ _
  | And =>
    exact pairSum_multilinear fun i _ => of_pair 0 0 0 (2 ^ (63 - i)) fun r => by ring
  | Andn =>
    exact pairSum_multilinear fun i _ =>
      of_pair 0 (2 ^ (63 - i)) 0 (-2 ^ (63 - i)) fun r => by ring
  | Or =>
    exact pairSum_multilinear fun i _ =>
      of_pair 0 (2 ^ (63 - i)) (2 ^ (63 - i)) (-2 ^ (63 - i)) fun r => by ring
  | Xor | VirtualXORROT rotation =>
    exact pairSum_multilinear fun i _ => (xorBit_multilinear i).constMul _
  | VirtualXORROTW rotation =>
    exact pairSum_multilinear fun i _ => (xorBit_multilinear (32 + i)).constMul _
  | Equal => exact heq
  | NotEqual => exact hone.sub heq
  | SignedLessThan => exact ((hcoord 0).sub (hcoord 1)).add hlt
  | SignedGreaterThanEqual => exact hone.sub (((hcoord 0).sub (hcoord 1)).add hlt)
  | UnsignedLessThan => exact hlt
  | UnsignedGreaterThanEqual => exact hone.sub hlt
  | LessThanEqual => exact hlt.add (hall (compareLoop_multilinear 64).2)
  | Movsign =>
    have h := (hcoord 0).constMul (2 ^ 64 - 1)
    simp only [mul_comm ((2 : F) ^ 64 - 1)] at h
    exact h
  | ValidUnsignedRemainder =>
    exact hlt.add (hall (MultilinearOn.prod (· / 2) fun i _ =>
      of_pair (i := i) 1 0 (-1) 0 fun r => by ring))
  | ValidDiv0 =>
    exact (hone.sub (hall (MultilinearOn.prod (· / 2) fun i _ =>
      of_pair (i := i) 1 (-1) 0 0 fun r => by ring))).add
        (hall (MultilinearOn.prod (· / 2) fun i _ => of_pair (i := i) 0 0 1 (-1) fun r => by ring))
  | HalfwordAlignment => exact hone.sub (hcoord 127)
  | WordAlignment =>
    exact hall ((oneSub_multilinear 127).mul (oneSub_multilinear 126) fun k hk => by omega)
  | SignExtendHalfWord =>
    have h := (weighted_multilinear 32 (fun i => (2 : F) ^ (31 - i)) fun _ => 96).constMul (2 ^ 32)
    simp only [mul_comm ((2 : F) ^ 32)] at h
    exact (weighted_multilinear _ _ _).add h
  | Pow2 =>
    exact hall (MultilinearOn.prod (127 - ·) fun i hi =>
      (of_coord (k := 127 - i) 1 (2 ^ 2 ^ i - 1) fun r => rfl).mono fun k hk => by omega)
  | Pow2W =>
    exact hall (MultilinearOn.prod (127 - ·) fun i hi =>
      (of_coord (k := 127 - i) 1 (2 ^ 2 ^ i - 1) fun r => rfl).mono fun k hk => by omega)
  | ShiftRightBitmask =>
    refine MultilinearOn.sum fun s _ => constMul _ ?_
    refine hall (MultilinearOn.prod (127 - ·) fun i hi => ?_)
    split_ifs
    · exact coord (by omega)
    · exact (oneSub_multilinear (127 - i)).mono fun k hk => by omega
  | VirtualRev8W =>
    refine MultilinearOn.sum fun j _ => ?_
    have h := (byteMle_multilinear (F := F) (rev8wByte j)).constMul (2 ^ (8 * j))
    simp only [mul_comm ((2 : F) ^ (8 * j))] at h
    exact h
  | VirtualSRL => exact hall (shiftMle_multilinear 64)
  | VirtualSRA =>
    -- The sign is bit 0 of the first operand, which the sum does not read.
    have hsum : MultilinearOn (fun k => k ≠ 0) fun r : Nat → F =>
        ∑ i ∈ range 64, if i = 0 then 0 else 2 ^ i * (1 - r (2 * i + 1)) := by
      refine MultilinearOn.sum fun i _ => ?_
      split_ifs
      · exact const 0
      · exact ((oneSub_multilinear (2 * i + 1)).constMul _).mono fun k hk => by omega
    exact (hall (shiftMle_multilinear 64)).add
      (hall ((coord (S := (· = 0)) rfl).mul hsum fun k hk hne => hne hk))
  | VirtualROTR =>
    exact (hall (rotateMle_multilinear 0 64).1).add (hall (rotateMle_multilinear 0 64).2.1)
  | VirtualROTRW =>
    exact (hall (rotateMle_multilinear 32 32).1).add (hall (rotateMle_multilinear 32 32).2.1)
  | MulUNoOverflow =>
    exact hall (MultilinearOn.prod id fun i _ => oneSub_multilinear i)
  | VirtualChangeDivisor =>
    have hx := (coord (S := (· = 0)) rfl : MultilinearOn _ fun r : Nat → F => r 0).mul
      (prodCoords (g := fun i => 2 * (i + 1)) (fun i j hij => by simpa using hij) 63
        fun i _ => oneSub_multilinear (F := F) (2 * (i + 1)))
      (by rintro k rfl ⟨i, -, hi⟩; omega)
    have hy := prodCoords (g := fun i => 2 * i + 1) (fun i j hij => by simpa using hij) 64
      fun i _ => (coord (S := (· = 2 * i + 1)) rfl : MultilinearOn _ fun r : Nat → F => r (2 * i + 1))
    have hxy := (hx.mul hy (by
      rintro k (rfl | ⟨i, -, rfl⟩) ⟨j, -, hj⟩ <;> omega)).constMul (2 - 2 ^ 64)
    simp only [mul_comm ((2 : F) - 2 ^ 64)] at hxy
    exact (weighted_multilinear _ _ _).add (hall hxy)
  | VirtualChangeDivisorW =>
    have hx := (coord (S := (· = 64)) rfl : MultilinearOn _ fun r : Nat → F => r 64).mul
      (prodCoords (g := fun i => 2 * (33 + i)) (fun i j hij => by simpa using hij) 31
        fun i _ => oneSub_multilinear (F := F) (2 * (33 + i)))
      (by rintro k rfl ⟨i, -, hi⟩; omega)
    have hy := prodCoords (g := fun i => 2 * (32 + i) + 1) (fun i j hij => by simpa using hij) 32
      fun i _ => (coord (S := (· = 2 * (32 + i) + 1)) rfl :
        MultilinearOn _ fun r : Nat → F => r (2 * (32 + i) + 1))
    have hxy := (hx.constMul (2 - 2 ^ 64)).mul hy (by
      rintro k (rfl | ⟨i, -, rfl⟩) ⟨j, -, hj⟩ <;> omega)
    exact ((weighted_multilinear _ _ _).add (hall hxy)).add ((hcoord 65).constMul _)

end Multilinear

end LightningJolt
