/-
The constraints of a cycle, as linear combinations of its inputs: under a
condition the left side equals the right side. The prover evaluates them in two
groups.
-/
import LightningJolt.R1csInputs

namespace LightningJolt

/-! ## Linear combinations -/

/-- A linear combination: coefficients of inputs, and a constant. -/
structure LC where
  terms : List (JoltR1CSInputs × Int)
  const : Int
deriving DecidableEq

namespace LC

def ofInput (input : JoltR1CSInputs) : LC := ⟨[(input, 1)], 0⟩

def ofInputWithCoeff (coeff : Int) (input : JoltR1CSInputs) : LC := ⟨[(input, coeff)], 0⟩

def ofConst (k : Int) : LC := ⟨[], k⟩

/-- A further term: merged with that of its input, which goes when they cancel. -/
def addTerm : List (JoltR1CSInputs × Int) → JoltR1CSInputs × Int → List (JoltR1CSInputs × Int)
  | [], t => [t]
  | u :: us, t =>
    if u.1 = t.1 then
      if u.2 + t.2 = 0 then
        match us.getLast? with
        | .none => []
        | .some last => last :: us.dropLast
      else (t.1, u.2 + t.2) :: us
    else u :: addTerm us t

/-- `checked_add`; no combination of the table goes beyond the capacity. -/
def add (a b : LC) : LC := ⟨b.terms.foldl addTerm a.terms, a.const + b.const⟩

/-- `mul_by_const`. -/
def mulByConst (a : LC) (k : Int) : LC := ⟨a.terms.map fun t => (t.1, t.2 * k), a.const * k⟩

/-- `checked_sub`. -/
def sub (a b : LC) : LC := a.add (b.mulByConst (-1))

instance : Add LC := ⟨add⟩

instance : Sub LC := ⟨sub⟩

variable {F : Type} [CommRing F]

/-- `dot_product`, with the values of the inputs and of the constant column. -/
def dotProduct (a : LC) (z : JoltR1CSInputs → F) (one : F) : F :=
  (a.terms.map fun t => (t.2 : F) * z t.1).sum + (a.const : F) * one

/-- The sum of terms. -/
def termSum (z : JoltR1CSInputs → F) (terms : List (JoltR1CSInputs × Int)) : F :=
  (terms.map fun t => (t.2 : F) * z t.1).sum

theorem termSum_addTerm (z : JoltR1CSInputs → F) (us : List (JoltR1CSInputs × Int))
    (t : JoltR1CSInputs × Int) :
    termSum z (addTerm us t) = termSum z us + (t.2 : F) * z t.1 := by
  induction us with
  | nil => simp [addTerm, termSum]
  | cons u us ih =>
    unfold addTerm
    split_ifs with hsame hzero
    · have hcoeff : ((u.2 : Int) : F) + ((t.2 : Int) : F) = 0 := by
        rw [← Int.cast_add, hzero, Int.cast_zero]
      have hcancel : termSum z (u :: us) + (t.2 : F) * z t.1 = termSum z us := by
        simp only [termSum, List.map_cons, List.sum_cons, hsame]
        linear_combination z t.1 * hcoeff
      rw [hcancel]
      cases hlast : us.getLast? with
      | none =>
        rw [List.getLast?_eq_none_iff.mp hlast]
      | some last =>
        have hsplit := List.dropLast_append_getLast? last (by simpa using hlast)
        have hsum : termSum z us = termSum z (us.dropLast ++ [last]) := by rw [hsplit]
        rw [hsum]
        simp only [termSum, List.map_cons, List.sum_cons, List.map_append, List.sum_append,
          List.map_nil, List.sum_nil, add_zero]
        ring
    · simp only [termSum, List.map_cons, List.sum_cons, hsame, Int.cast_add]
      ring
    · have hrest := ih
      simp only [termSum] at hrest
      simp only [termSum, List.map_cons, List.sum_cons, hrest]
      ring

theorem termSum_foldl (z : JoltR1CSInputs → F) (us ts : List (JoltR1CSInputs × Int)) :
    termSum z (ts.foldl addTerm us) = termSum z us + termSum z ts := by
  induction ts generalizing us with
  | nil => simp [termSum]
  | cons t ts ih =>
    rw [List.foldl_cons, ih, termSum_addTerm]
    simp only [termSum, List.map_cons, List.sum_cons]
    ring

@[simp] theorem dotProduct_ofInput (input : JoltR1CSInputs) (z : JoltR1CSInputs → F) (one : F) :
    (ofInput input).dotProduct z one = z input := by simp [dotProduct, ofInput]

@[simp] theorem dotProduct_ofInputWithCoeff (k : Int) (input : JoltR1CSInputs)
    (z : JoltR1CSInputs → F) (one : F) :
    (ofInputWithCoeff k input).dotProduct z one = k * z input := by
  simp [dotProduct, ofInputWithCoeff]

@[simp] theorem dotProduct_ofConst (k : Int) (z : JoltR1CSInputs → F) (one : F) :
    (ofConst k).dotProduct z one = k * one := by simp [dotProduct, ofConst]

@[simp] theorem dotProduct_add (a b : LC) (z : JoltR1CSInputs → F) (one : F) :
    (a + b).dotProduct z one = a.dotProduct z one + b.dotProduct z one := by
  have hterms := termSum_foldl z a.terms b.terms
  simp only [termSum] at hterms
  change (a.add b).dotProduct z one = _
  simp only [dotProduct, add, hterms, Int.cast_add]
  ring

theorem dotProduct_mulByConst (a : LC) (k : Int) (z : JoltR1CSInputs → F) (one : F) :
    (a.mulByConst k).dotProduct z one = k * a.dotProduct z one := by
  obtain ⟨terms, const⟩ := a
  have hterms : ((terms.map fun t => (t.1, t.2 * k)).map fun t => ((t.2 : Int) : F) * z t.1).sum =
      k * (terms.map fun t => ((t.2 : Int) : F) * z t.1).sum := by
    induction terms with
    | nil => simp
    | cons t terms ih =>
      simp only [List.map_cons, List.sum_cons, ih, Int.cast_mul]
      ring
  simp only [dotProduct, mulByConst, hterms, Int.cast_mul]
  ring

@[simp] theorem dotProduct_sub (a b : LC) (z : JoltR1CSInputs → F) (one : F) :
    (a - b).dotProduct z one = a.dotProduct z one - b.dotProduct z one := by
  change (a + b.mulByConst (-1)).dotProduct z one = _
  rw [dotProduct_add, dotProduct_mulByConst]
  push_cast
  ring

theorem dotProduct_linear (a : LC) (c : F) (x y : JoltR1CSInputs → F) (p q : F) :
    a.dotProduct (fun input => c * x input + y input) (c * p + q) =
      c * a.dotProduct x p + a.dotProduct y q := by
  obtain ⟨terms, const⟩ := a
  have hterms : (terms.map fun t => ((t.2 : Int) : F) * (c * x t.1 + y t.1)).sum =
      c * (terms.map fun t => ((t.2 : Int) : F) * x t.1).sum +
        (terms.map fun t => ((t.2 : Int) : F) * y t.1).sum := by
    induction terms with
    | nil => simp
    | cons t terms ih =>
      simp only [List.map_cons, List.sum_cons, ih]
      ring
  simp only [dotProduct, hterms]
  ring

/-- A combination of points takes the combination of the values. -/
theorem dotProduct_sum {ι : Type} (a : LC) (s : List ι) (k : ι → F) (z : ι → JoltR1CSInputs → F)
    (one : ι → F) :
    a.dotProduct (fun input => (s.map fun i => k i * z i input).sum) (s.map fun i => k i * one i).sum =
      (s.map fun i => k i * a.dotProduct (z i) (one i)).sum := by
  induction s with
  | nil => simp [dotProduct]
  | cons i s ih =>
    simp only [List.map_cons, List.sum_cons, ← ih]
    exact dotProduct_linear a (k i) (z i) _ (one i) _

end LC

/-! ## The table -/

inductive R1CSConstraintLabel
  | RamAddrEqRs1PlusImmIfLoadStore | RamAddrEqZeroIfNotLoadStore | RamReadEqRamWriteIfLoad
  | RamReadEqRdWriteIfLoad | Rs2EqRamWriteIfStore | LeftLookupZeroUnlessAddSubMul
  | LeftLookupEqLeftInputOtherwise | RightLookupAdd | RightLookupSub | RightLookupEqProductIfMul
  | RightLookupEqRightInputOtherwise | AssertLookupOne | RdWriteEqLookupIfWriteLookupToRd
  | RdWriteEqPCPlusConstIfWritePCtoRD | NextUnexpPCEqLookupIfShouldJump
  | NextUnexpPCEqPCPlusImmIfShouldBranch | NextUnexpPCUpdateOtherwise | NextPCEqPCPlusOneIfInline
  | MustStartSequenceFromBeginning
deriving DecidableEq

structure NamedR1CSConstraint where
  label : R1CSConstraintLabel
  a : LC
  b : LC
deriving DecidableEq

/-- `r1cs_eq_conditional!`: the condition times the difference of the sides. -/
def eqConditional (label : R1CSConstraintLabel) (condition left right : LC) : NamedR1CSConstraint :=
  ⟨label, condition, left - right⟩

open JoltR1CSInputs CircuitFlags LC R1CSConstraintLabel in
/-- `R1CS_CONSTRAINTS`. -/
def r1csConstraints : List NamedR1CSConstraint := [
  eqConditional RamAddrEqRs1PlusImmIfLoadStore
    (ofInput (OpFlags Load) + ofInput (OpFlags Store))
    (ofInput RamAddress) (ofInput Rs1Value + ofInput Imm),
  eqConditional RamAddrEqZeroIfNotLoadStore
    (ofConst 1 - ofInput (OpFlags Load) - ofInput (OpFlags Store))
    (ofInput RamAddress) (ofConst 0),
  eqConditional RamReadEqRamWriteIfLoad
    (ofInput (OpFlags Load)) (ofInput RamReadValue) (ofInput RamWriteValue),
  eqConditional RamReadEqRdWriteIfLoad
    (ofInput (OpFlags Load)) (ofInput RamReadValue) (ofInput RdWriteValue),
  eqConditional Rs2EqRamWriteIfStore
    (ofInput (OpFlags Store)) (ofInput Rs2Value) (ofInput RamWriteValue),
  eqConditional LeftLookupZeroUnlessAddSubMul
    (ofInput (OpFlags AddOperands) + ofInput (OpFlags SubtractOperands) +
      ofInput (OpFlags MultiplyOperands))
    (ofInput LeftLookupOperand) (ofConst 0),
  eqConditional LeftLookupEqLeftInputOtherwise
    (ofConst 1 - ofInput (OpFlags AddOperands) - ofInput (OpFlags SubtractOperands) -
      ofInput (OpFlags MultiplyOperands))
    (ofInput LeftLookupOperand) (ofInput LeftInstructionInput),
  eqConditional RightLookupAdd
    (ofInput (OpFlags AddOperands))
    (ofInput RightLookupOperand) (ofInput LeftInstructionInput + ofInput RightInstructionInput),
  eqConditional RightLookupSub
    (ofInput (OpFlags SubtractOperands))
    (ofInput RightLookupOperand)
    (ofInput LeftInstructionInput - ofInput RightInstructionInput + ofConst 0x10000000000000000),
  eqConditional RightLookupEqProductIfMul
    (ofInput (OpFlags MultiplyOperands)) (ofInput RightLookupOperand) (ofInput Product),
  eqConditional RightLookupEqRightInputOtherwise
    (ofConst 1 - ofInput (OpFlags AddOperands) - ofInput (OpFlags SubtractOperands) -
      ofInput (OpFlags MultiplyOperands) - ofInput (OpFlags Advice))
    (ofInput RightLookupOperand) (ofInput RightInstructionInput),
  eqConditional AssertLookupOne
    (ofInput (OpFlags Assert)) (ofInput LookupOutput) (ofConst 1),
  eqConditional RdWriteEqLookupIfWriteLookupToRd
    (ofInput (OpFlags WriteLookupOutputToRD)) (ofInput RdWriteValue) (ofInput LookupOutput),
  eqConditional RdWriteEqPCPlusConstIfWritePCtoRD
    (ofInput (OpFlags Jump)) (ofInput RdWriteValue)
    (ofInput UnexpandedPC + ofConst 4 - ofInputWithCoeff 2 (OpFlags IsCompressed)),
  eqConditional NextUnexpPCEqLookupIfShouldJump
    (ofInput ShouldJump) (ofInput NextUnexpandedPC) (ofInput LookupOutput),
  eqConditional NextUnexpPCEqPCPlusImmIfShouldBranch
    (ofInput ShouldBranch) (ofInput NextUnexpandedPC) (ofInput UnexpandedPC + ofInput Imm),
  eqConditional NextUnexpPCUpdateOtherwise
    (ofConst 1 - ofInput ShouldBranch - ofInput (OpFlags Jump))
    (ofInput NextUnexpandedPC)
    (ofInput UnexpandedPC + ofConst 4 - ofInputWithCoeff 4 (OpFlags DoNotUpdateUnexpandedPC) -
      ofInputWithCoeff 2 (OpFlags IsCompressed)),
  eqConditional NextPCEqPCPlusOneIfInline
    (ofInput (OpFlags VirtualInstruction) - ofInput (OpFlags IsLastInSequence))
    (ofInput NextPC) (ofInput PC + ofConst 1),
  eqConditional MustStartSequenceFromBeginning
    (ofInput NextIsVirtual - ofInput NextIsFirstInSequence)
    (ofConst 1) (ofInput (OpFlags DoNotUpdateUnexpandedPC))]

open R1CSConstraintLabel in
/-- `R1CS_CONSTRAINTS_FIRST_GROUP_LABELS`. -/
def firstGroupLabels : List R1CSConstraintLabel := [
  RamAddrEqZeroIfNotLoadStore, RamReadEqRamWriteIfLoad, RamReadEqRdWriteIfLoad,
  Rs2EqRamWriteIfStore, LeftLookupZeroUnlessAddSubMul, LeftLookupEqLeftInputOtherwise,
  AssertLookupOne, NextUnexpPCEqLookupIfShouldJump, NextPCEqPCPlusOneIfInline,
  MustStartSequenceFromBeginning]

/-- `complement_first_group_labels`. -/
def secondGroupLabels : List R1CSConstraintLabel :=
  (r1csConstraints.map (·.label)).filter fun l => l ∉ firstGroupLabels

/-- `filter_r1cs_constraints`, in the order of the table. -/
def filterR1csConstraints (labels : List R1CSConstraintLabel) : List NamedR1CSConstraint :=
  r1csConstraints.filter fun c => c.label ∈ labels

/-- `R1CS_CONSTRAINTS_FIRST_GROUP`. -/
def r1csConstraintsFirstGroup : List NamedR1CSConstraint := filterR1csConstraints firstGroupLabels

/-- `R1CS_CONSTRAINTS_SECOND_GROUP`. -/
def r1csConstraintsSecondGroup : List NamedR1CSConstraint := filterR1csConstraints secondGroupLabels

end LightningJolt
