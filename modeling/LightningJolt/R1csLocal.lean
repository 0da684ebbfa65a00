/-
The constraints that look at one cycle alone, on the rows of traced cycles: which
cycles the tracer emits satisfy them.
-/
import LightningJolt.R1csEvaluation
import LightningJolt.LookupAgreement
import LightningJolt.Access

namespace LightningJolt

/-! ## The constraints of one row -/

/-- The inputs that the next cycle has a part in. -/
def JoltR1CSInputs.isOfNext : JoltR1CSInputs → Bool
  | .NextUnexpandedPC | .NextPC | .NextIsVirtual | .NextIsFirstInSequence | .ShouldJump => true
  | _ => false

instance : JoltField ℚ where
  two_ne_zero := by decide

/-- The constraint mentions the next cycle. -/
def NamedR1CSConstraint.mentionsNext (c : NamedR1CSConstraint) : Bool :=
  (c.a.terms ++ c.b.terms).any fun t => t.1.isOfNext

/-- A field in which no small integer vanishes, as none does in a prime field of more
than 140 bits. -/
def LargeField (F : Type) [JoltField F] : Prop :=
  ∀ z : Int, z.natAbs < 2 ^ 140 → (z : F) = 0 → z = 0

theorem LC.natAbs_dotProduct {z : JoltR1CSInputs → Int} {M : Nat} (hz : ∀ input, (z input).natAbs ≤ M)
    (a : LC) : (a.dotProduct z 1 : Int).natAbs ≤
      (a.terms.map fun t => t.2.natAbs).sum * M + a.const.natAbs := by
  obtain ⟨terms, const⟩ := a
  have hterms : (terms.map fun t => ((t.2 : Int)) * z t.1).sum.natAbs ≤
      (terms.map fun t => t.2.natAbs).sum * M := by
    induction terms with
    | nil => simp
    | cons t terms ih =>
      simp only [List.map_cons, List.sum_cons, Nat.add_mul]
      have hsum := Int.natAbs_add_le (t.2 * z t.1) (terms.map fun t => ((t.2 : Int)) * z t.1).sum
      have hterm : (t.2 * z t.1).natAbs ≤ t.2.natAbs * M := by
        rw [Int.natAbs_mul]
        exact Nat.mul_le_mul_left _ (hz t.1)
      omega
  simp only [dotProduct, Int.cast_id, mul_one]
  have hsum := Int.natAbs_add_le (terms.map fun t => ((t.2 : Int)) * z t.1).sum const
  omega

namespace R1CSCycleInputs

/-- The row satisfies, over the field, every constraint that does not mention the
next cycle. -/
def SatisfiesLocal (F : Type) [JoltField F] (row : R1CSCycleInputs) : Prop :=
  ∀ c ∈ r1csConstraints, c.mentionsNext = false →
    (c.a.dotProduct row.fieldValue 1 * c.b.dotProduct row.fieldValue 1 : F) = 0

/-- The equalities that the constraints of one row are. -/
structure LocalChecks (row : R1CSCycleInputs) : Prop where
  ramAddress : row.flags .Load ∨ row.flags .Store →
    (row.ramAddr.toNat : Int) = row.rs1ReadValue.toNat + row.imm.toInt
  noRamAddress : ¬ row.flags .Load → ¬ row.flags .Store → row.ramAddr = 0
  loadKeeps : row.flags .Load → row.ramReadValue = row.ramWriteValue
  loaded : row.flags .Load → row.ramReadValue = row.rdWriteValue
  stored : row.flags .Store → row.rs2ReadValue = row.ramWriteValue
  leftLookup : row.leftLookup =
    if row.flags .AddOperands || row.flags .SubtractOperands || row.flags .MultiplyOperands then 0
    else row.leftInput
  added : row.flags .AddOperands →
    (row.rightLookup.toNat : Int) = row.leftInput.toNat + row.rightInput.toInt
  subtracted : row.flags .SubtractOperands →
    (row.rightLookup.toNat : Int) = row.leftInput.toNat - row.rightInput.toInt + 2 ^ 64
  multiplied : row.flags .MultiplyOperands → (row.rightLookup.toNat : Int) = row.product.toInt
  rightLookup : ¬ row.flags .AddOperands → ¬ row.flags .SubtractOperands →
    ¬ row.flags .MultiplyOperands → ¬ row.flags .Advice →
    (row.rightLookup.toNat : Int) = row.rightInput.toInt
  asserted : row.flags .Assert → row.lookupOutput = 1
  written : row.flags .WriteLookupOutputToRD → row.rdWriteValue = row.lookupOutput
  linked : row.flags .Jump → (row.rdWriteValue.toNat : Int) =
    row.unexpandedPc.toNat + 4 - (if row.flags .IsCompressed then 2 else 0)

/-- The flags of a row that exclude one another. -/
structure FlagsExclusive (row : R1CSCycleInputs) : Prop where
  loadStore : row.flags .Load → row.flags .Store → False
  operands : (row.flags .AddOperands).toNat + (row.flags .SubtractOperands).toNat +
    (row.flags .MultiplyOperands).toNat + (row.flags .Advice).toNat ≤ 1

section Guards

variable {a b c d : Bool} {P : Prop}

theorem flag_guard : a = false ∨ P ↔ (a → P) := by
  cases a <;> simp

theorem or_guard : (a.toNat : Int) + b.toNat = 0 ∨ P ↔ (a ∨ b → P) := by
  cases a <;> cases b <;> simp

theorem nor_guard (h : a → b → False) :
    1 - (a.toNat : Int) - b.toNat = 0 ∨ P ↔ (¬ a → ¬ b → P) := by
  cases a <;> cases b <;> simp at h ⊢

theorem or3_guard : (a.toNat : Int) + b.toNat + c.toNat = 0 ∨ P ↔ (a || b || c → P) := by
  cases a <;> cases b <;> cases c <;> simp

theorem nor3_guard (h : a.toNat + b.toNat + c.toNat ≤ 1) :
    1 - (a.toNat : Int) - b.toNat - c.toNat = 0 ∨ P ↔ (¬ (a || b || c) → P) := by
  cases a <;> cases b <;> cases c <;> simp at h ⊢

theorem nor4_guard (h : a.toNat + b.toNat + c.toNat + d.toNat ≤ 1) :
    1 - (a.toNat : Int) - b.toNat - c.toNat - d.toNat = 0 ∨ P ↔ (¬ a → ¬ b → ¬ c → ¬ d → P) := by
  cases a <;> cases b <;> cases c <;> cases d <;> simp at h ⊢

end Guards

theorem toNat_sub_eq_zero {w : Nat} {x y : BitVec w} : (x.toNat : Int) - y.toNat = 0 ↔ x = y := by
  rw [sub_eq_zero, Nat.cast_inj, BitVec.toNat_inj]

theorem toNat_eq_zero {w : Nat} {x : BitVec w} : x.toNat = 0 ↔ x = 0 := by
  rw [← BitVec.toNat_inj]
  simp

theorem local_constraints :
    r1csConstraints.filter (fun c => !c.mentionsNext) = r1csConstraints.take 14 := by
  decide

/-- The constraints of one row over the integers. -/
theorem localChecks_iff {row : R1CSCycleInputs} (h : row.FlagsExclusive) :
    (∀ c ∈ r1csConstraints, c.mentionsNext = false →
      (c.a.dotProduct row.inputValue 1 * c.b.dotProduct row.inputValue 1 : Int) = 0) ↔
      row.LocalChecks := by
  have hlocal : (∀ c ∈ r1csConstraints, c.mentionsNext = false →
      (c.a.dotProduct row.inputValue 1 * c.b.dotProduct row.inputValue 1 : Int) = 0) ↔
      ∀ c ∈ r1csConstraints.take 14,
        (c.a.dotProduct row.inputValue 1 * c.b.dotProduct row.inputValue 1 : Int) = 0 := by
    rw [← local_constraints]
    simp only [List.mem_filter, Bool.not_eq_true', and_imp]
  rw [hlocal]
  simp only [r1csConstraints, List.take_succ_cons, List.take_zero, List.forall_mem_cons, eqConditional]
  simp [inputValue]
  have hoperands : (row.flags .AddOperands).toNat + (row.flags .SubtractOperands).toNat +
      (row.flags .MultiplyOperands).toNat ≤ 1 := le_trans (Nat.le_add_right _ _) h.operands
  have hone : (row.lookupOutput.toNat : Int) - 1 = 0 ↔ row.lookupOutput = 1 := by
    rw [← toNat_sub_eq_zero]
    rfl
  have htwo : (2 : Int) * (row.flags .IsCompressed).toNat = if row.flags .IsCompressed then 2 else 0 := by
    cases row.flags .IsCompressed <;> rfl
  simp only [or_guard, nor_guard h.loadStore, flag_guard, or3_guard, nor3_guard hoperands,
    nor4_guard h.operands, toNat_sub_eq_zero, toNat_eq_zero, hone, htwo]
  constructor
  · rintro ⟨h1, h2, h3, h4, h5, h6, h7, h8, h9, h10, h11, h12, h13, h14⟩
    refine ⟨fun hg => ?_, h2, h3, h4, h5, ?_, fun hg => ?_, fun hg => ?_, fun hg => ?_,
      fun ha hs hm hv => ?_, h12, h13, fun hg => ?_⟩
    · exact sub_eq_zero.mp (h1 hg)
    · split_ifs with hg
      · exact h6 hg
      · exact h7 hg
    · exact sub_eq_zero.mp (h8 hg)
    · exact sub_eq_zero.mp (h9 hg)
    · exact sub_eq_zero.mp (h10 hg)
    · exact sub_eq_zero.mp (h11 ha hs hm hv)
    · exact sub_eq_zero.mp (h14 hg)
  · intro hchecks
    have hleft := hchecks.leftLookup
    refine ⟨fun hg => sub_eq_zero.mpr (hchecks.ramAddress hg), hchecks.noRamAddress, hchecks.loadKeeps,
      hchecks.loaded, hchecks.stored, fun hg => ?_, fun hg => ?_,
      fun hg => sub_eq_zero.mpr (hchecks.added hg), fun hg => sub_eq_zero.mpr (hchecks.subtracted hg),
      fun hg => sub_eq_zero.mpr (hchecks.multiplied hg),
      fun ha hs hm hv => sub_eq_zero.mpr (hchecks.rightLookup ha hs hm hv), hchecks.asserted,
      hchecks.written, fun hg => sub_eq_zero.mpr (hchecks.linked hg)⟩
    · rwa [if_pos hg] at hleft
    · rwa [if_neg hg] at hleft

theorem natAbs_inputValue (row : R1CSCycleInputs) (input : JoltR1CSInputs) :
    (row.inputValue input).natAbs ≤ 2 ^ 128 := by
  have hword (x : U64) : x.toNat ≤ 2 ^ 128 := x.isLt.le.trans (by decide)
  have hbool (b : Bool) : b.toNat ≤ 2 ^ 128 := (Bool.toNat_le b).trans (by decide)
  have hs64 (x : S64) : x.toInt.natAbs ≤ 2 ^ 128 := x.natAbs_toInt_lt.le.trans (by decide)
  cases input with
  | Imm => exact hs64 row.imm
  | RightInstructionInput => exact hs64 row.rightInput
  | Product => exact row.product.natAbs_toInt_lt.le
  | RightLookupOperand => exact row.rightLookup.isLt.le
  | ShouldBranch => exact hbool row.shouldBranch
  | NextIsVirtual => exact hbool row.nextIsVirtual
  | NextIsFirstInSequence => exact hbool row.nextIsFirstInSequence
  | ShouldJump => exact hbool row.shouldJump
  | OpFlags flag => exact hbool (row.flags flag)
  | _ => exact hword _

theorem constraint_coefficients : ∀ c ∈ r1csConstraints,
    ((c.a.terms.map fun t => t.2.natAbs).sum ≤ 16 ∧ c.a.const.natAbs ≤ 2 ^ 128) ∧
      (c.b.terms.map fun t => t.2.natAbs).sum ≤ 16 ∧ c.b.const.natAbs ≤ 2 ^ 128 := by
  decide

/-- Over a large field the constraints hold as they do over the integers. -/
theorem satisfiesLocal_iff {F : Type} [JoltField F] (hF : LargeField F) {row : R1CSCycleInputs}
    (h : row.FlagsExclusive) : row.SatisfiesLocal F ↔ row.LocalChecks := by
  rw [← localChecks_iff h]
  have hcast (lc : LC) : (lc.dotProduct row.fieldValue 1 : F) = ((lc.dotProduct row.inputValue 1 : Int) : F) :=
    (lc.cast_dotProduct _).symm
  have hzero {lc : LC} (hsum : (lc.terms.map fun t => t.2.natAbs).sum ≤ 16)
      (hconst : lc.const.natAbs ≤ 2 ^ 128) :
      (lc.dotProduct row.fieldValue 1 : F) = 0 ↔ (lc.dotProduct row.inputValue 1 : Int) = 0 := by
    have hbound := lc.natAbs_dotProduct (natAbs_inputValue row)
    rw [hcast]
    refine ⟨hF _ (by omega), fun hint => ?_⟩
    rw [hint, Int.cast_zero]
  refine forall_congr' fun c => forall_congr' fun hc => forall_congr' fun _ => ?_
  obtain ⟨⟨ha, haconst⟩, hb, hbconst⟩ := constraint_coefficients c hc
  rw [mul_eq_zero, mul_eq_zero, hzero ha haconst, hzero hb hbconst]

end R1CSCycleInputs

/-! ## Operands -/

/-- The bytes of an instruction, by which the counter moves past it. -/
def BasicInstruction.length (i : BasicInstruction) : Nat := if i.isCompressed then 2 else 4

/-- The operands on which an instruction strays from its constraints: an `ADDI` that
writes a value to `x0`, an access whose address wraps, an alignment assertion of a
negative address, an equality assertion that an immediate turns off. -/
def Cycle.Strays (c : Cycle) : Prop :=
  match c.instruction.op with
  | .i .ADDI o => o.rd = 0 ∧ c.rs1Value + o.imm ≠ 0
  | .LD o => ((c.rs1Value + (o.imm.setWidth 32).signExtend 64).toNat : Int) ≠
      c.rs1Value.toNat + o.imm.toInt
  | .SD o => ((c.rs1Value + o.imm).toNat : Int) ≠ c.rs1Value.toNat + o.imm.toInt
  | .align _ o => (c.rs1Value.toNat : Int) + o.imm.toInt < 0
  | .assert .VirtualAssertEQ o => o.imm ≠ 0 ∧ c.rs1Value ≠ c.rs2Value
  | _ => False

section Operands

variable {c : Cycle} {left ll : U64} {right : Int} {rl : U128}

theorem inputs_bounds (h : c.toInstructionInputs = .some (left, right)) : right.natAbs < 2 ^ 64 := by
  have hnat (x : U64) : ((x.toNat : Int)).natAbs < 2 ^ 64 := by
    have hlt := x.isLt
    omega
  have hint (x : U64) : x.toInt.natAbs < 2 ^ 64 := by
    have hlow := x.le_toInt
    have hhigh := x.toInt_lt
    omega
  unfold Cycle.toInstructionInputs at h
  split at h <;> try split at h
  all_goals cases h
  all_goals first | exact hnat _ | exact hint _ | decide

theorem toNat_added (x y : U64) : ((x.setWidth 128 + y.setWidth 128).toNat : Int) = x.toNat + y.toNat := by
  have hx := x.isLt
  have hy := y.isLt
  rw [BitVec.toNat_add, BitVec.toNat_setWidth_of_le (by decide), BitVec.toNat_setWidth_of_le (by decide)]
  omega

theorem toNat_signedAdded {z : Int} (h0 : 0 ≤ z) (h : z < 2 ^ 128) :
    ((BitVec.ofInt 128 z).toNat : Int) = z := by
  rw [BitVec.toNat_ofInt]
  omega

theorem toNat_subtracted (x y : U64) :
    ((x.setWidth 128 + ((1 : U128) <<< 64 - BitVec.ofInt 128 y.toNat)).toNat : Int) =
      x.toNat - y.toNat + 2 ^ 64 := by
  have hx := x.isLt
  have hy := y.isLt
  have hone : ((1 : U128) <<< 64).toNat = 2 ^ 64 := by decide
  have hy' : (BitVec.ofInt 128 (y.toNat : Int)).toNat = y.toNat := by
    rw [BitVec.toNat_ofInt]
    omega
  rw [BitVec.toNat_add, BitVec.toNat_sub, BitVec.toNat_setWidth_of_le (by decide), hone, hy']
  omega

theorem toNat_multiplied (x y : U64) :
    ((x.setWidth 128 * y.setWidth 128).toNat : Int) = x.toNat * y.toNat := by
  have hprod : x.toNat * y.toNat < 2 ^ 128 := by
    have hx := x.isLt
    have hy := y.isLt
    nlinarith
  rw [BitVec.toNat_mul, BitVec.toNat_setWidth_of_le (by decide), BitVec.toNat_setWidth_of_le (by decide),
    Nat.mod_eq_of_lt hprod, Nat.cast_mul]

theorem toNat_plain (y : U64) : (((BitVec.ofInt 64 y.toNat).setWidth 128).toNat : Int) = y.toNat := by
  rw [ofInt_toNat, BitVec.toNat_setWidth_of_le (by decide)]

/-- The operands of a query, by the flag that says how they are made. -/
structure OperandChecks (add sub mul advice : Bool) (left : U64) (right : Int) (ll : U64) (rl : U128) :
    Prop where
  leftLookup : ll = if add || sub || mul then 0 else left
  subtracted : sub → (rl.toNat : Int) = left.toNat - right + 2 ^ 64
  multiplied : mul → (rl.toNat : Int) = left.toNat * right
  rightLookup : ¬ add → ¬ sub → ¬ mul → ¬ advice → (rl.toNat : Int) = right

theorem OperandChecks.plain (x y : U64) (advice : Bool) :
    OperandChecks false false false advice x y.toNat x ((BitVec.ofInt 64 y.toNat).setWidth 128) where
  leftLookup := rfl
  subtracted h := absurd h Bool.false_ne_true
  multiplied h := absurd h Bool.false_ne_true
  rightLookup _ _ _ _ := toNat_plain y

theorem OperandChecks.added (x : U64) (y : Int) (advice : Bool) (rl : U128) :
    OperandChecks true false false advice x y 0 rl where
  leftLookup := rfl
  subtracted h := absurd h Bool.false_ne_true
  multiplied h := absurd h Bool.false_ne_true
  rightLookup h := absurd rfl h

theorem OperandChecks.minus (x y : U64) : OperandChecks false true false false x y.toNat 0
    (x.setWidth 128 + ((1 : U128) <<< 64 - BitVec.ofInt 128 y.toNat)) where
  leftLookup := rfl
  subtracted _ := toNat_subtracted x y
  multiplied h := absurd h Bool.false_ne_true
  rightLookup _ h := absurd rfl h

theorem OperandChecks.times (x y : U64) : OperandChecks false false true false x y.toNat 0
    (x.setWidth 128 * (BitVec.ofInt 64 y.toNat).setWidth 128) where
  leftLookup := rfl
  subtracted h := absurd h Bool.false_ne_true
  multiplied _ := by rw [ofInt_toNat, toNat_multiplied]
  rightLookup _ _ h := absurd rfl h

theorem OperandChecks.advised (y : Int) (rl : U128) : OperandChecks false false false true 0 y 0 rl where
  leftLookup := rfl
  subtracted h := absurd h Bool.false_ne_true
  multiplied h := absurd h Bool.false_ne_true
  rightLookup _ _ _ h := absurd rfl h

theorem operandChecks (hin : c.toInstructionInputs = .some (left, right))
    (hops : c.toLookupOperands = .some (ll, rl)) :
    OperandChecks (c.instruction.circuitFlags .AddOperands)
      (c.instruction.circuitFlags .SubtractOperands) (c.instruction.circuitFlags .MultiplyOperands)
      (c.instruction.circuitFlags .Advice) left right ll rl := by
  unfold Cycle.toLookupOperands at hops
  rw [hin] at hops
  unfold Cycle.toInstructionInputs at hin
  unfold BasicInstruction.circuitFlags
  cases hop : c.instruction.op with
  | r op o =>
    rw [hop] at hin hops
    cases op <;> cases hin <;> cases hops <;>
      first
        | exact .plain _ _ _
        | exact .added _ _ _ _
        | exact .minus _ _
        | exact .times _ _
  | i op o =>
    rw [hop] at hin hops
    cases op <;> cases hin <;> cases hops <;>
      first
        | exact .plain _ _ _
        | exact .added _ _ _ _
        | exact .times _ _
  | assert op o =>
    rw [hop] at hin hops
    cases op <;> cases hin <;> cases hops <;>
      first
        | exact .plain _ _ _
        | exact .times _ _
  | u op o =>
    rw [hop] at hin hops
    cases op <;> cases hin <;> cases hops <;> exact .added _ _ _ _
  | VirtualLW o | VirtualSW o =>
    rw [hop] at hin
    cases hin
  | VirtualAdvice o advice | VirtualAdviceLoad o | VirtualAdviceLen o =>
    rw [hop] at hin hops
    cases hin
    cases hops
    exact .advised _ _
  | j op o | align op o =>
    rw [hop] at hin hops
    cases hin
    cases hops
    exact .added _ _ _ _
  | JAL o | JALR o =>
    rw [hop] at hin hops
    cases hin
    cases hops
    exact .added _ _ _ _
  | branch op o | shiftI op o | shiftR op o =>
    rw [hop] at hin hops
    cases hin
    cases hops
    exact .plain _ _ _
  | _ =>
    rw [hop] at hin hops
    cases hin
    cases hops
    exact .plain 0 0 _

theorem sum_added (x y : U64) :
    ((x.setWidth 128 + (BitVec.ofInt 64 y.toNat).setWidth 128).toNat : Int) = x.toNat + y.toNat := by
  rw [ofInt_toNat, toNat_added]

theorem sum_signedAdded (x y : U64) :
    ((BitVec.ofInt 128 (x.toNat + y.toNat)).toNat : Int) = x.toNat + y.toNat := by
  have hx := x.isLt
  have hy := y.isLt
  exact toNat_signedAdded (by omega) (by omega)

theorem sum_plain (y : U64) :
    (((BitVec.ofInt 64 y.toNat).setWidth 128).toNat : Int) = (0 : U64).toNat + y.toNat := by
  rw [toNat_plain]
  simp

theorem sum_added_zero (x : U64) :
    ((x.setWidth 128 + (BitVec.ofInt 64 0).setWidth 128).toNat : Int) = x.toNat + 0 := sum_added x 0

theorem sum_signedAdded_zero (x : U64) :
    ((BitVec.ofInt 128 (x.toNat + 0)).toNat : Int) = x.toNat + 0 := sum_signedAdded x 0

theorem sum_reversed (x : U64) : ((x.setWidth 128).toNat : Int) = x.toNat + 0 := by
  rw [BitVec.toNat_setWidth_of_le (by decide), add_zero]

/-- The sum of an addition, outside the alignment assertions. -/
theorem added_eq (hin : c.toInstructionInputs = .some (left, right))
    (hops : c.toLookupOperands = .some (ll, rl)) (halign : ∀ op o, c.instruction.op ≠ .align op o)
    (hadd : c.instruction.circuitFlags .AddOperands) : (rl.toNat : Int) = left.toNat + right := by
  unfold Cycle.toLookupOperands at hops
  rw [hin] at hops
  unfold Cycle.toInstructionInputs at hin
  unfold BasicInstruction.circuitFlags at hadd
  cases hop : c.instruction.op with
  | r op o =>
    rw [hop] at hin hops hadd
    cases op <;> first
      | exact absurd hadd Bool.false_ne_true
      | cases hin
        cases hops
        exact sum_added _ _
  | i op o =>
    rw [hop] at hin hops hadd
    cases op with
    | ADDI =>
      cases hin
      cases hops
      exact sum_added _ _
    | VirtualPow2 | VirtualPow2W | VirtualShiftRightBitmask | VirtualSignExtendWord =>
      cases hin
      cases hops
      exact sum_added_zero _
    | VirtualZeroExtendWord =>
      cases hin
      cases hops
      exact sum_signedAdded_zero _
    | VirtualRev8W =>
      cases hin
      cases hops
      exact sum_reversed _
    | _ => exact absurd hadd Bool.false_ne_true
  | u op o =>
    rw [hop] at hin hops
    cases op <;> cases hin <;> cases hops <;> first | exact sum_plain _ | exact sum_signedAdded _ _
  | j op o =>
    rw [hop] at hin hops
    cases hin
    cases hops
    exact sum_added 0 _
  | JAL o | JALR o =>
    rw [hop] at hin hops
    cases hin
    cases hops
    exact sum_signedAdded _ _
  | align op o => exact absurd hop (halign op o)
  | assert op o =>
    rw [hop] at hadd
    cases op <;> exact absurd hadd Bool.false_ne_true
  | _ =>
    rw [hop] at hadd
    exact absurd hadd Bool.false_ne_true

/-- That of an alignment assertion: the address, unless it is negative. -/
theorem added_align {op : AlignOp} {o : FormatAssert} (hop : c.instruction.op = .align op o)
    (hin : c.toInstructionInputs = .some (left, right)) (hops : c.toLookupOperands = .some (ll, rl)) :
    (rl.toNat : Int) = left.toNat + right ↔ ¬ (c.rs1Value.toNat : Int) + o.imm.toInt < 0 := by
  have hx := c.rs1Value.isLt
  have hlow := o.imm.le_toInt
  have hhigh := o.imm.toInt_lt
  have hin' : c.toInstructionInputs = .some (c.rs1Value, o.imm.toInt) := by
    unfold Cycle.toInstructionInputs
    rw [hop]
  have hops' : c.toLookupOperands =
      .some (0, BitVec.ofInt 128 (c.rs1Value.toNat + o.imm.toInt)) := by
    unfold Cycle.toLookupOperands
    rw [hin', hop]
    rfl
  rw [hin'] at hin
  rw [hops'] at hops
  cases hin
  cases hops
  rw [BitVec.toNat_ofInt]
  omega

end Operands

/-! ## Accesses -/

section Accesses

variable {address : U64} {cpu cpu' : Cpu} {access : RamAccess}

/-- A load records its effective address and the value it writes. -/
theorem exec_LD {o : FormatLoad} (h : (BasicOp.LD o).exec address cpu = .some (access, cpu')) :
    ∃ value, access = .read ⟨(cpu.x.read o.rs1 + (o.imm.setWidth 32).signExtend 64).toNat, value⟩ ∧
      cpu'.x = cpu.x.write o.rd value ∧ cpu'.pc = cpu.pc := by
  obtain ⟨⟨⟨value, read⟩, cpu1⟩, hload, hrest⟩ := Option.bind_eq_some_iff.mp h
  obtain ⟨⟨loaded, mmu⟩, hmmu, hcpu⟩ := Option.bind_eq_some_iff.mp hload
  obtain ⟨-, hvalue, -⟩ := (Mmu.loadDoubleword_reads (BitVec.isLt _)).some hmmu
  cases hcpu
  cases hrest
  obtain ⟨rfl, rfl⟩ := Prod.mk.inj hvalue
  exact ⟨_, rfl, rfl, rfl⟩

/-- A store records its effective address and the value of `rs2`. -/
theorem exec_SD {o : FormatS} (h : (BasicOp.SD o).exec address cpu = .some (access, cpu')) :
    ∃ pre, access = .write ⟨(cpu.x.read o.rs1 + o.imm).toNat, pre, cpu.x.read o.rs2⟩ ∧
      cpu'.x = cpu.x ∧ cpu'.pc = cpu.pc := by
  obtain ⟨⟨write, cpu1⟩, hstore, hrest⟩ := Option.bind_eq_some_iff.mp h
  obtain ⟨⟨stored, mmu⟩, hmmu, hcpu⟩ := Option.bind_eq_some_iff.mp hstore
  cases hcpu
  cases hrest
  unfold Mmu.storeDoubleword at hmmu
  obtain ⟨⟨⟨⟩, mmu1⟩, hguard, hmmu⟩ := Option.bind_eq_some_iff.mp hmmu
  obtain ⟨⟨record, mmu2⟩, htrace, hmmu⟩ := Option.bind_eq_some_iff.mp hmmu
  obtain ⟨⟨⟨⟩, mmu3⟩, hraw, hmmu⟩ := Option.bind_eq_some_iff.mp hmmu
  cases hmmu
  obtain ⟨⟨⟨⟩, mmu4⟩, hassert, htrace⟩ := Option.bind_eq_some_iff.mp htrace
  obtain ⟨⟨pre, mmu5⟩, hpre, htrace⟩ := Option.bind_eq_some_iff.mp htrace
  cases htrace
  exact ⟨pre, rfl, rfl, rfl⟩

/-- The other operations access nothing. -/
theorem exec_noAccess {op : BasicOp} (h : op.exec address cpu = .some (access, cpu'))
    (hload : ∀ o, op ≠ .LD o) (hstore : ∀ o, op ≠ .SD o) : access = .noOp := by
  cases op with
  | noOp | VirtualLW | VirtualSW => cases h
  | LD o => exact absurd rfl (hload o)
  | SD o => exact absurd rfl (hstore o)
  | VirtualAdviceLoad o =>
    obtain ⟨⟨value, tape⟩, -, hwrite⟩ := Option.bind_eq_some_iff.mp h
    cases hwrite
    rfl
  | VirtualHostIo o =>
    obtain ⟨⟨⟨⟩, cpu1⟩, -, hpure⟩ := Option.bind_eq_some_iff.mp h
    cases hpure
    rfl
  | branch op o | assert op o | align op o =>
    simp only [BasicOp.exec] at h
    split at h <;> cases h
    all_goals rfl
  | _ =>
    cases h
    rfl

end Accesses

/-! ## The row of a cycle -/

/-- The row holds what the cycle's queries give. -/
structure R1CSCycleInputs.RowOf (row : R1CSCycleInputs) (c : Cycle) (left : U64) (right : Int) (ll : U64)
    (rl : U128) (output : U64) : Prop where
  inputs : c.toInstructionInputs = .some (left, right)
  operands : c.toLookupOperands = .some (ll, rl)
  outputs : c.toLookupOutput = .some output
  leftInput : row.leftInput = left
  rightInput : row.rightInput = s64Truncated right
  product : row.product = SignedMagnitude.ofInt 128 (left.toNat * right)
  leftLookup : row.leftLookup = ll
  rightLookup : row.rightLookup = rl
  lookupOutput : row.lookupOutput = output
  rs1ReadValue : row.rs1ReadValue = c.rs1Value
  rs2ReadValue : row.rs2ReadValue = c.rs2Value
  rdWriteValue : row.rdWriteValue = c.rdValue
  ramAddr : row.ramAddr = BitVec.ofNat 64 c.ramAccess.address
  ramReadValue : row.ramReadValue = c.ramAccess.values.1
  ramWriteValue : row.ramWriteValue = c.ramAccess.values.2
  unexpandedPc : row.unexpandedPc = c.unexpandedPc
  imm : row.imm = s64Truncated c.instruction.op.normalize.imm
  flags : row.flags = c.instruction.circuitFlags

theorem R1CSCycleInputs.rowOf_fromTrace {b : BytecodePreprocessing} {cycles : List Cycle} {t : Nat}
    {row : R1CSCycleInputs} {c : Cycle} (hc : cycles[t]? = .some c)
    (h : fromTrace b cycles t = .some row) : ∃ left right ll rl output,
      row.RowOf c left right ll rl output := by
  simp only [fromTrace, Option.bind_eq_bind, Option.bind_eq_some_iff] at h
  obtain ⟨cycle, hcycle, ⟨left, right⟩, hin, ⟨ll, rl⟩, hops, output, hout, pc, -, nextPc, -, hrow⟩ := h
  rw [hc] at hcycle
  cases hcycle
  cases hrow
  exact ⟨left, right, ll, rl, output, hin, hops, hout, rfl, rfl, rfl, rfl, rfl, rfl, rfl, rfl, rfl, rfl,
    rfl, rfl, rfl, rfl, rfl⟩

namespace R1CSCycleInputs.RowOf

variable {row : R1CSCycleInputs} {c : Cycle} {left ll output : U64} {right : Int} {rl : U128}

theorem flagsExclusive (h : row.RowOf c left right ll rl output) : row.FlagsExclusive := by
  refine ⟨fun hload hstore => ?_, ?_⟩
  · rw [h.flags] at hload hstore
    simp only [BasicInstruction.circuitFlags, decide_eq_true_eq] at hload hstore
    exact BasicOp.load_not_store _ hload hstore
  · rw [h.flags]
    simp only [BasicInstruction.circuitFlags]
    exact BasicOp.one_operand_flag _

theorem toInt_rightInput (h : row.RowOf c left right ll rl output) : row.rightInput.toInt = right := by
  rw [h.rightInput]
  exact SignedMagnitude.toInt_ofInt (inputs_bounds h.inputs)

theorem toInt_product (h : row.RowOf c left right ll rl output) :
    row.product.toInt = left.toNat * right := by
  have hright := inputs_bounds h.inputs
  have hleft := left.isLt
  rw [h.product]
  refine SignedMagnitude.toInt_ofInt ?_
  rw [Int.natAbs_mul, Int.natAbs_natCast]
  nlinarith

/-- The checks that are left once the operands are as the flags say. -/
theorem localChecks_of (h : row.RowOf c left right ll rl output)
    (ramAddress : c.instruction.circuitFlags .Load ∨ c.instruction.circuitFlags .Store →
      (row.ramAddr.toNat : Int) = row.rs1ReadValue.toNat + row.imm.toInt)
    (noRamAddress : ¬ c.instruction.circuitFlags .Load → ¬ c.instruction.circuitFlags .Store →
      row.ramAddr = 0)
    (loaded : c.instruction.circuitFlags .Load →
      row.ramReadValue = row.ramWriteValue ∧ row.ramReadValue = row.rdWriteValue)
    (stored : c.instruction.circuitFlags .Store → row.rs2ReadValue = row.ramWriteValue)
    (added : c.instruction.circuitFlags .AddOperands → (rl.toNat : Int) = left.toNat + right)
    (asserted : c.instruction.circuitFlags .Assert → output = 1)
    (written : c.instruction.circuitFlags .WriteLookupOutputToRD → c.rdValue = output)
    (linked : c.instruction.circuitFlags .Jump → (c.rdValue.toNat : Int) =
      c.unexpandedPc.toNat + 4 - (if c.instruction.circuitFlags .IsCompressed then 2 else 0)) :
    row.LocalChecks := by
  have hoperands := operandChecks h.inputs h.operands
  refine ⟨?_, ?_, ?_, ?_, ?_, ?_, ?_, ?_, ?_, ?_, ?_, ?_, ?_⟩ <;>
    simp only [h.flags, h.leftLookup, h.rightLookup, h.leftInput, h.toInt_rightInput, h.toInt_product,
      h.lookupOutput, h.rdWriteValue, h.unexpandedPc]
  · exact ramAddress
  · exact noRamAddress
  · exact fun hg => (loaded hg).1
  · exact fun hg => h.rdWriteValue ▸ (loaded hg).2
  · exact stored
  · exact hoperands.leftLookup
  · exact added
  · exact hoperands.subtracted
  · exact hoperands.multiplied
  · exact hoperands.rightLookup
  · exact asserted
  · exact written
  · exact linked

end R1CSCycleInputs.RowOf

/-! ## The flags of an operation -/

namespace BasicOp

variable {op : BasicOp}

theorem of_load (h : .Load ∈ op.circuitFlags) : ∃ o, op = .LD o := by
  cases op with
  | LD o => exact ⟨o, rfl⟩
  | r op o | i op o | assert op o => cases op <;> simp [circuitFlags] at h
  | _ => simp [circuitFlags] at h

theorem of_store (h : .Store ∈ op.circuitFlags) : ∃ o, op = .SD o := by
  cases op with
  | SD o => exact ⟨o, rfl⟩
  | r op o | i op o | assert op o => cases op <;> simp [circuitFlags] at h
  | _ => simp [circuitFlags] at h

theorem of_jump (h : .Jump ∈ op.circuitFlags) : (∃ o, op = .JAL o) ∨ ∃ o, op = .JALR o := by
  cases op with
  | JAL o => exact .inl ⟨o, rfl⟩
  | JALR o => exact .inr ⟨o, rfl⟩
  | r op o | i op o | assert op o => cases op <;> simp [circuitFlags] at h
  | _ => simp [circuitFlags] at h

theorem of_assert (h : .Assert ∈ op.circuitFlags) :
    (∃ aop o, op = .assert aop o) ∨ ∃ aop o, op = .align aop o := by
  cases op with
  | assert aop o => exact .inl ⟨aop, o, rfl⟩
  | align aop o => exact .inr ⟨aop, o, rfl⟩
  | r op o | i op o => cases op <;> simp [circuitFlags] at h
  | _ => simp [circuitFlags] at h

/-- An operation that writes its lookup output has a table, and its outcome is the
value in `rd`. -/
theorem of_written (h : .WriteLookupOutputToRD ∈ op.circuitFlags) :
    (∃ table, op.lookupTable = .some table) ∧ (∃ rd, op.normalize.rd = .some rd ∧ op.rd = .some rd) ∧
      ∀ i : BasicInstruction, i.op = op → ∀ cpu cpu' output, i.Outcome cpu cpu' output →
        ∀ rd, op.rd = .some rd → output = cpu'.x.read rd := by
  cases op with
  | r op o | i op o =>
    refine ⟨by cases op <;> exact ⟨_, rfl⟩, ⟨o.rd, rfl, rfl⟩, fun i hi cpu cpu' output houtcome => ?_⟩
    unfold BasicInstruction.Outcome at houtcome
    rw [hi] at houtcome
    exact houtcome
  | u op o | j op o | shiftI op o | shiftR op o =>
    refine ⟨by cases op <;> exact ⟨_, rfl⟩, ⟨o.rd, rfl, rfl⟩, fun i hi cpu cpu' output houtcome => ?_⟩
    unfold BasicInstruction.Outcome at houtcome
    rw [hi] at houtcome
    exact houtcome
  | VirtualAdvice o advice =>
    refine ⟨⟨_, rfl⟩, ⟨o.rd, rfl, rfl⟩, fun i hi cpu cpu' output houtcome => ?_⟩
    unfold BasicInstruction.Outcome at houtcome
    rw [hi] at houtcome
    exact houtcome
  | VirtualAdviceLoad o | VirtualAdviceLen o =>
    refine ⟨⟨_, rfl⟩, ⟨o.rd, rfl, rfl⟩, fun i hi cpu cpu' output houtcome => ?_⟩
    unfold BasicInstruction.Outcome at houtcome
    rw [hi] at houtcome
    exact houtcome
  | assert op o => cases op <;> simp [circuitFlags] at h
  | _ => simp [circuitFlags] at h

/-- Operations that leave `x0` alone, or an addition, or `EBREAK`. -/
def Regular (op : BasicOp) : Prop :=
  op.rd ≠ .some 0 ∨ (∃ o, op = .i .ADDI o) ∨ ∃ o, op = .EBREAK o

end BasicOp

/-! ## One cycle -/

section OneCycle

variable {i : BasicInstruction} {cpu cpu' : Cpu} {c : Cycle} {row : R1CSCycleInputs}
  {left ll output : U64} {right : Int} {rl : U128}

theorem toInt_s64Truncated (x : U64) : (s64Truncated x.toInt).toInt = x.toInt := by
  have hlow := x.le_toInt
  have hhigh := x.toInt_lt
  exact SignedMagnitude.toInt_ofInt (by omega)

/-- The addresses of a load's row. -/
theorem load_address {o : FormatLoad} (hop : i.op = .LD o) (htrace : i.traceRaw cpu = .some ([c], cpu'))
    (hrow : row.RowOf c left right ll rl output) :
    row.ramAddr = c.rs1Value + (o.imm.setWidth 32).signExtend 64 ∧ row.imm.toInt = o.imm.toInt := by
  obtain ⟨access, hexec, hcycle⟩ := BasicInstruction.traceRaw_exec htrace
  have hc := List.singleton_inj.mp hcycle
  rw [hop] at hexec
  obtain ⟨value, rfl, -, -⟩ := exec_LD hexec
  rw [hrow.ramAddr, hrow.imm, hc, hop]
  exact ⟨BitVec.ofNat_toNat .., toInt_s64Truncated o.imm⟩

/-- The addresses of a store's row. -/
theorem store_address {o : FormatS} (hop : i.op = .SD o) (htrace : i.traceRaw cpu = .some ([c], cpu'))
    (hrow : row.RowOf c left right ll rl output) :
    row.ramAddr = c.rs1Value + o.imm ∧ row.imm.toInt = o.imm.toInt := by
  obtain ⟨access, hexec, hcycle⟩ := BasicInstruction.traceRaw_exec htrace
  have hc := List.singleton_inj.mp hcycle
  rw [hop] at hexec
  obtain ⟨pre, rfl, -, -⟩ := exec_SD hexec
  rw [hrow.ramAddr, hrow.imm, hc, hop]
  exact ⟨BitVec.ofNat_toNat .., toInt_s64Truncated o.imm⟩

/-- The output of an addition, and what `x0` reads after it. -/
theorem addi_x0 {o : FormatI} (hop : i.op = .i .ADDI o) (hrd : o.rd = 0)
    (htrace : i.traceRaw cpu = .some ([c], cpu')) (hrow : row.RowOf c left right ll rl output) :
    output = c.rs1Value + o.imm ∧ c.rdValue = 0 := by
  obtain ⟨access, hexec, hcycle⟩ := BasicInstruction.traceRaw_exec htrace
  have hc := List.singleton_inj.mp hcycle
  have hcop : c.instruction.op = .i .ADDI o := by rw [hc, hop]
  obtain ⟨index, -, hout, -⟩ := looksUp_i hcop rfl
  rw [hrow.outputs] at hout
  refine ⟨Option.some.inj hout, ?_⟩
  rw [hc, Cycle.rdValue, hop]
  change cpu'.x.read o.rd = 0
  rw [hrd, Registers.read_zero]

/-- The counter past an instruction, which links a jump. -/
def BasicInstruction.PcPast (i : BasicInstruction) (cpu : Cpu) : Prop :=
  cpu.pc = i.address + BitVec.ofNat 64 i.length

/-- The value a jump links. -/
theorem jump_links (hjump : .Jump ∈ i.op.circuitFlags) (hregular : i.op.Regular)
    (htrace : i.traceRaw cpu = .some ([c], cpu')) : c.rdValue = cpu.pc := by
  obtain ⟨access, hexec, hcycle⟩ := BasicInstruction.traceRaw_exec htrace
  have hc := List.singleton_inj.mp hcycle
  have hwrite {rd : Nat} (hrd : i.op.normalize.rd = .some rd)
      (hx : cpu'.x = (cpu.writeRegister rd cpu.pc).x) : c.rdValue = cpu.pc := by
    have hne : rd ≠ 0 := by
      rcases hregular with hne | ⟨o, ho⟩ | ⟨o, ho⟩
      · exact fun hzero => hne (by rw [BasicOp.rd, hrd, hzero])
      · rw [ho] at hjump
        simp [BasicOp.circuitFlags] at hjump
      · rw [ho] at hjump
        simp [BasicOp.circuitFlags] at hjump
    rw [hc, Cycle.rdValue, hrd]
    change cpu'.x.read rd = cpu.pc
    rw [hx, Cpu.writeRegister_x, Registers.read_write_self _ _ hne]
  rcases BasicOp.of_jump hjump with ⟨o, hop⟩ | ⟨o, hop⟩
  · rw [hop] at hexec hwrite
    cases hexec
    exact hwrite rfl rfl
  · rw [hop] at hexec hwrite
    cases hexec
    exact hwrite rfl rfl

/-- The check of a jump's `rd`. -/
theorem jump_linked (hjump : .Jump ∈ i.op.circuitFlags) (hregular : i.op.Regular) (hpc : i.PcPast cpu)
    (haddress : i.address.toNat + 4 < 2 ^ 64) (htrace : i.traceRaw cpu = .some ([c], cpu')) :
    (c.rdValue.toNat : Int) =
      c.unexpandedPc.toNat + 4 - (if c.instruction.circuitFlags .IsCompressed then 2 else 0) := by
  obtain ⟨access, hexec, hcycle⟩ := BasicInstruction.traceRaw_exec htrace
  have hc := List.singleton_inj.mp hcycle
  have hinstr : c.instruction = i := by rw [hc]
  have hne : i.op ≠ .noOp := by
    intro hnoOp
    rw [hnoOp] at hjump
    simp [BasicOp.circuitFlags] at hjump
  have hcompressed : i.circuitFlags .IsCompressed = i.isCompressed := by
    simp [BasicInstruction.circuitFlags, hne]
  rw [jump_links hjump hregular htrace, hpc, Cycle.unexpandedPc, hinstr, if_neg hne, hcompressed,
    BitVec.toNat_add, BitVec.toNat_ofNat, BasicInstruction.length]
  cases i.isCompressed with
  | true =>
    simp only [if_true]
    omega
  | false =>
    simp only [Bool.false_eq_true, if_false]
    omega

/-- A cycle that strays fails a check. -/
theorem strays_fails (htrace : i.traceRaw cpu = .some ([c], cpu'))
    (hrow : row.RowOf c left right ll rl output) (hstrays : c.Strays) : ¬ row.LocalChecks := by
  intro hchecks
  obtain ⟨access, hexec, hcycle⟩ := BasicInstruction.traceRaw_exec htrace
  have hc := List.singleton_inj.mp hcycle
  have hinstr : c.instruction = i := by rw [hc]
  have hflag (flag : CircuitFlags) : row.flags flag = i.circuitFlags flag := by rw [hrow.flags, hinstr]
  unfold Cycle.Strays at hstrays
  split at hstrays
  case h_1 o hop =>
    rw [hinstr] at hop
    obtain ⟨hrd, hne⟩ := hstrays
    obtain ⟨hout, hzero⟩ := addi_x0 hop hrd htrace hrow
    have hwritten := hchecks.written (by rw [hflag]; simp [BasicInstruction.circuitFlags, hop, BasicOp.circuitFlags])
    rw [hrow.rdWriteValue, hrow.lookupOutput, hzero, hout] at hwritten
    exact hne hwritten.symm
  case h_2 o hop =>
    rw [hinstr] at hop
    obtain ⟨haddr, himm⟩ := load_address hop htrace hrow
    have haddress := hchecks.ramAddress
      (.inl (by rw [hflag]; simp [BasicInstruction.circuitFlags, hop, BasicOp.circuitFlags]))
    rw [haddr, himm, hrow.rs1ReadValue] at haddress
    exact hstrays haddress
  case h_3 o hop =>
    rw [hinstr] at hop
    obtain ⟨haddr, himm⟩ := store_address hop htrace hrow
    have haddress := hchecks.ramAddress
      (.inr (by rw [hflag]; simp [BasicInstruction.circuitFlags, hop, BasicOp.circuitFlags]))
    rw [haddr, himm, hrow.rs1ReadValue] at haddress
    exact hstrays haddress
  case h_4 op o hop =>
    have hadded := hchecks.added (by
      rw [hrow.flags]
      simp [BasicInstruction.circuitFlags, hop, BasicOp.circuitFlags])
    rw [hrow.rightLookup, hrow.leftInput, hrow.toInt_rightInput] at hadded
    exact (added_align hop hrow.inputs hrow.operands).mp hadded hstrays
  case h_5 o hop =>
    obtain ⟨-, hne⟩ := hstrays
    have hasserted := hchecks.asserted (by
      rw [hrow.flags]
      simp [BasicInstruction.circuitFlags, hop, BasicOp.circuitFlags])
    obtain ⟨index, -, hout, -⟩ := looksUp_assert hop rfl
    rw [hrow.outputs] at hout
    rw [hrow.lookupOutput, Option.some.inj hout] at hasserted
    have hholds : AssertOp.holds .VirtualAssertEQ c.rs1Value c.rs2Value 0 = true := by
      by_contra hfalse
      rw [Bool.not_eq_true] at hfalse
      rw [hfalse] at hasserted
      exact absurd hasserted (by decide)
    exact hne (holds_assertEQ.mp hholds)
  case h_6 => exact hstrays

/-- The value written to `rd` is the output of the lookup. -/
theorem written_output (hflag : .WriteLookupOutputToRD ∈ i.op.circuitFlags) (hregular : i.op.Regular)
    (hmask : i.op.Masked cpu.x) (htrace : i.traceRaw cpu = .some ([c], cpu'))
    (hrow : row.RowOf c left right ll rl output) (hstrays : ¬ c.Strays) : c.rdValue = output := by
  obtain ⟨access, hexec, hcycle⟩ := BasicInstruction.traceRaw_exec htrace
  have hc := List.singleton_inj.mp hcycle
  obtain ⟨⟨table, htable⟩, ⟨rd, hrd, -⟩, houtcome⟩ := BasicOp.of_written hflag
  by_cases hzero : i.op.rd = .some 0
  · rcases hregular with hne | ⟨o, hop⟩ | ⟨o, hop⟩
    · exact absurd hzero hne
    · have hord : o.rd = 0 := by
        rw [hop] at hzero
        exact Option.some.inj hzero
      obtain ⟨hout, hx0⟩ := addi_x0 hop hord htrace hrow
      have hcop : c.instruction.op = .i .ADDI o := by rw [hc, hop]
      rw [hx0, hout]
      by_contra hne
      refine hstrays ?_
      unfold Cycle.Strays
      rw [hcop]
      exact ⟨hord, fun h => hne h.symm⟩
    · rw [hop] at hflag
      simp [BasicOp.circuitFlags] at hflag
  · obtain ⟨-, htables, -⟩ := lookup_agrees hzero hmask htrace
    obtain ⟨index, value, -, hvalue, -, hvalueOutcome⟩ := htables table htable
    rw [hrow.outputs] at hvalue
    cases hvalue
    rw [houtcome i rfl cpu cpu' output hvalueOutcome rd hrd, hc, Cycle.rdValue, hrd]
    rfl

/-- An assertion that passed has the output 1. -/
theorem asserted_output (hflag : .Assert ∈ i.op.circuitFlags)
    (htrace : i.traceRaw cpu = .some ([c], cpu')) (hrow : row.RowOf c left right ll rl output)
    (hstrays : ¬ c.Strays) : output = 1 := by
  obtain ⟨access, hexec, hcycle⟩ := BasicInstruction.traceRaw_exec htrace
  have hc := List.singleton_inj.mp hcycle
  have hinstr : c.instruction = i := by rw [hc]
  have hrs1 : c.rs1 = i.op.normalize.rs1.map cpu.x.read := by rw [hc]
  have hrs2 : c.rs2 = i.op.normalize.rs2.map cpu.x.read := by rw [hc]
  rcases BasicOp.of_assert hflag with ⟨aop, o, hop⟩ | ⟨aop, o, hop⟩
  · have hcop : c.instruction.op = .assert aop o := by rw [hinstr, hop]
    obtain ⟨table, htable⟩ : ∃ table, (BasicOp.assert aop o).lookupTable = .some table := by
      cases aop <;> exact ⟨_, rfl⟩
    obtain ⟨index, -, hout, -⟩ := looksUp_assert hcop htable
    rw [hrow.outputs] at hout
    rw [Option.some.inj hout]
    rw [hop] at hexec hrs1 hrs2
    simp only [BasicOp.exec] at hexec
    split at hexec
    next hholds =>
      have hr1 : c.rs1Value = cpu.x.read o.rs1 := by rw [Cycle.rs1Value, hrs1]; rfl
      have hr2 : c.rs2Value = cpu.x.read o.rs2 := by rw [Cycle.rs2Value, hrs2]; rfl
      rw [← hr1, ← hr2] at hholds
      cases aop with
      | VirtualAssertEQ =>
        refine boolEntry_true (holds_assertEQ.mpr ?_)
        by_contra hne
        refine hstrays ?_
        unfold Cycle.Strays
        rw [hcop]
        refine ⟨fun himm => ?_, hne⟩
        rw [himm] at hholds
        exact hne (holds_assertEQ.mp hholds)
      | _ => exact boolEntry_true hholds
    next => cases hexec
  · have hcop : c.instruction.op = .align aop o := by rw [hinstr, hop]
    obtain ⟨table, htable⟩ : ∃ table, (BasicOp.align aop o).lookupTable = .some table := by
      cases aop <;> exact ⟨_, rfl⟩
    obtain ⟨index, -, hout, -⟩ := looksUp_align hcop htable
    rw [hrow.outputs] at hout
    rw [Option.some.inj hout]
    rw [hop] at hexec hrs1
    simp only [BasicOp.exec] at hexec
    split at hexec
    next hholds =>
      have hr1 : c.rs1Value = cpu.x.read o.rs1 := by rw [Cycle.rs1Value, hrs1]; rfl
      rw [← hr1] at hholds
      exact boolEntry_true hholds
    next => cases hexec

/-- A cycle with a row has an address that leaves room for the next one. -/
theorem address_of_fromTrace {b : BytecodePreprocessing} {cycles : List Cycle} {t : Nat}
    (hc : cycles[t]? = .some c) (h : R1CSCycleInputs.fromTrace b cycles t = .some row)
    (hne : c.instruction.op ≠ .noOp) : c.instruction.address.toNat + 4 < 2 ^ 64 := by
  simp only [R1CSCycleInputs.fromTrace, Option.bind_eq_bind, Option.bind_eq_some_iff] at h
  obtain ⟨cycle, hcycle, -, -, -, -, -, -, pc, hpc, -⟩ := h
  rw [hc] at hcycle
  cases hcycle
  rw [BytecodePreprocessing.getPc, if_neg hne] at hpc
  exact (BytecodePCMapper.getPc_bounds hpc).2.1

/-- A traced cycle passes the checks of one row exactly when it does not stray. -/
theorem localChecks_iff_strays (hregular : i.op.Regular) (hmask : i.op.Masked cpu.x)
    (hpc : .Jump ∈ i.op.circuitFlags → i.PcPast cpu) (htrace : i.traceRaw cpu = .some ([c], cpu'))
    (haddress : c.instruction.op ≠ .noOp → c.instruction.address.toNat + 4 < 2 ^ 64)
    (hrow : row.RowOf c left right ll rl output) : row.LocalChecks ↔ ¬ c.Strays := by
  refine ⟨fun hchecks hstrays => strays_fails htrace hrow hstrays hchecks, fun hstrays => ?_⟩
  obtain ⟨access, hexec, hcycle⟩ := BasicInstruction.traceRaw_exec htrace
  have hc := List.singleton_inj.mp hcycle
  have hinstr : c.instruction = i := by rw [hc]
  have haccess : c.ramAccess = access := by rw [hc]
  have hcop : c.instruction.op = i.op := by rw [hinstr]
  have hload (h : c.instruction.circuitFlags .Load) : ∃ o, i.op = .LD o := by
    rw [hinstr] at h
    exact BasicOp.of_load (by simpa [BasicInstruction.circuitFlags] using h)
  have hstore (h : c.instruction.circuitFlags .Store) : ∃ o, i.op = .SD o := by
    rw [hinstr] at h
    exact BasicOp.of_store (by simpa [BasicInstruction.circuitFlags] using h)
  refine hrow.localChecks_of ?_ ?_ ?_ ?_ ?_ ?_ ?_ ?_
  · intro hflag
    rcases hflag with hflag | hflag
    · obtain ⟨o, hop⟩ := hload hflag
      obtain ⟨haddr, himm⟩ := load_address hop htrace hrow
      rw [haddr, himm, hrow.rs1ReadValue]
      by_contra hne
      refine hstrays ?_
      unfold Cycle.Strays
      rw [hcop, hop]
      exact hne
    · obtain ⟨o, hop⟩ := hstore hflag
      obtain ⟨haddr, himm⟩ := store_address hop htrace hrow
      rw [haddr, himm, hrow.rs1ReadValue]
      by_contra hne
      refine hstrays ?_
      unfold Cycle.Strays
      rw [hcop, hop]
      exact hne
  · intro hnoload hnostore
    have hnone : access = .noOp := by
      refine exec_noAccess hexec (fun o hop => hnoload ?_) (fun o hop => hnostore ?_)
      · simp [BasicInstruction.circuitFlags, hinstr, hop, BasicOp.circuitFlags]
      · simp [BasicInstruction.circuitFlags, hinstr, hop, BasicOp.circuitFlags]
    rw [hrow.ramAddr, haccess, hnone]
    rfl
  · intro hflag
    obtain ⟨o, hop⟩ := hload hflag
    have hord : o.rd ≠ 0 := by
      rcases hregular with hne | ⟨o', ho'⟩ | ⟨o', ho'⟩
      · exact fun hzero => hne (by rw [hop, ← hzero]; rfl)
      · rw [ho'] at hop
        cases hop
      · rw [ho'] at hop
        cases hop
    have hrd : c.rd = i.op.normalize.rd.map fun r => (cpu.x.read r, cpu'.x.read r) := by rw [hc]
    rw [hop] at hexec hrd
    obtain ⟨value, hread, hx, -⟩ := exec_LD hexec
    rw [hrow.ramReadValue, hrow.ramWriteValue, hrow.rdWriteValue, haccess, hread, Cycle.rdValue, hrd]
    refine ⟨rfl, ?_⟩
    change value = cpu'.x.read o.rd
    rw [hx, Registers.read_write_self _ _ hord]
  · intro hflag
    obtain ⟨o, hop⟩ := hstore hflag
    have hrs2 : c.rs2 = i.op.normalize.rs2.map cpu.x.read := by rw [hc]
    rw [hop] at hexec hrs2
    obtain ⟨pre, hwrite, -, -⟩ := exec_SD hexec
    rw [hrow.ramWriteValue, hrow.rs2ReadValue, haccess, hwrite, Cycle.rs2Value, hrs2]
    rfl
  · intro hflag
    by_cases halign : ∃ op o, c.instruction.op = .align op o
    · obtain ⟨op, o, hop⟩ := halign
      refine (added_align hop hrow.inputs hrow.operands).mpr fun hneg => hstrays ?_
      unfold Cycle.Strays
      rw [hop]
      exact hneg
    · exact added_eq hrow.inputs hrow.operands (fun op o hop => halign ⟨op, o, hop⟩) hflag
  · intro hflag
    rw [hinstr] at hflag
    exact asserted_output (by simpa [BasicInstruction.circuitFlags] using hflag) htrace hrow hstrays
  · intro hflag
    rw [hinstr] at hflag
    exact written_output (by simpa [BasicInstruction.circuitFlags] using hflag) hregular hmask htrace
      hrow hstrays
  · intro hflag
    rw [hinstr] at hflag
    have hjump : .Jump ∈ i.op.circuitFlags := by simpa [BasicInstruction.circuitFlags] using hflag
    have hne : i.op ≠ .noOp := by
      intro hnoOp
      rw [hnoOp] at hjump
      simp [BasicOp.circuitFlags] at hjump
    exact jump_linked hjump hregular (hpc hjump) (hinstr ▸ haddress (hinstr ▸ hne)) htrace

end OneCycle

end LightningJolt
