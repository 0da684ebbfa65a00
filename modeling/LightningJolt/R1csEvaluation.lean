/-
The prover's evaluators of the constraints, typed by hand, against the table: on
every row of a trace each position has the value of the table's combination.
-/
import LightningJolt.R1csConstraints
import LightningJolt.EqTable

namespace LightningJolt

/-! ## The evaluators -/

structure AzFirstGroup where
  notLoadStore : Bool
  loadA : Bool
  loadB : Bool
  store : Bool
  addSubMul : Bool
  notAddSubMul : Bool
  assertFlag : Bool
  shouldJump : Bool
  virtualInstrNotLast : Bool
  mustStartSequence : Bool

structure BzFirstGroup where
  ramAddr : U64
  ramReadMinusRamWrite : S64
  ramReadMinusRdWrite : S64
  rs2MinusRamWrite : S64
  leftLookup : U64
  leftLookupMinusLeftInput : S64
  lookupOutputMinusOne : S64
  nextUnexpPcMinusLookupOutput : S64
  nextPcMinusPcPlusOne : S64
  oneMinusDoNotUpdateUnexpandedPc : Bool

structure AzSecondGroup where
  loadOrStore : Bool
  add : Bool
  sub : Bool
  mul : Bool
  notAddSubMulAdvice : Bool
  writeLookupToRd : Bool
  writePcToRd : Bool
  shouldBranch : Bool
  notJumpOrBranch : Bool

/-- The two fields of type `i128` are integers. -/
structure BzSecondGroup where
  ramAddrMinusRs1PlusImm : Int
  rightLookupMinusAddResult : S160
  rightLookupMinusSubResult : S160
  rightLookupMinusProduct : S160
  rightLookupMinusRightInput : S160
  rdWriteMinusLookupOutput : S64
  rdWriteMinusPcPlusConst : S64
  nextUnexpPcMinusPcPlusImm : Int
  nextUnexpPcMinusExpected : S64

/-- The values in the order of the constraints. -/
def AzFirstGroup.values (az : AzFirstGroup) : List Int :=
  [az.notLoadStore, az.loadA, az.loadB, az.store, az.addSubMul, az.notAddSubMul, az.assertFlag,
    az.shouldJump, az.virtualInstrNotLast, az.mustStartSequence].map fun guard => guard.toNat

def BzFirstGroup.values (bz : BzFirstGroup) : List Int :=
  [bz.ramAddr.toNat, bz.ramReadMinusRamWrite.toInt, bz.ramReadMinusRdWrite.toInt,
    bz.rs2MinusRamWrite.toInt, bz.leftLookup.toNat, bz.leftLookupMinusLeftInput.toInt,
    bz.lookupOutputMinusOne.toInt, bz.nextUnexpPcMinusLookupOutput.toInt,
    bz.nextPcMinusPcPlusOne.toInt, bz.oneMinusDoNotUpdateUnexpandedPc.toNat]

def AzSecondGroup.values (az : AzSecondGroup) : List Int :=
  [az.loadOrStore, az.add, az.sub, az.mul, az.notAddSubMulAdvice, az.writeLookupToRd,
    az.writePcToRd, az.shouldBranch, az.notJumpOrBranch].map fun guard => guard.toNat

def BzSecondGroup.values (bz : BzSecondGroup) : List Int :=
  [bz.ramAddrMinusRs1PlusImm, bz.rightLookupMinusAddResult.toInt,
    bz.rightLookupMinusSubResult.toInt, bz.rightLookupMinusProduct.toInt,
    bz.rightLookupMinusRightInput.toInt, bz.rdWriteMinusLookupOutput.toInt,
    bz.rdWriteMinusPcPlusConst.toInt, bz.nextUnexpPcMinusPcPlusImm, bz.nextUnexpPcMinusExpected.toInt]

namespace R1CSCycleInputs

/-- `eval_az_first_group`. -/
def evalAzFirstGroup (row : R1CSCycleInputs) : AzFirstGroup :=
  let ld := row.flags .Load
  let st := row.flags .Store
  let add := row.flags .AddOperands
  let sub := row.flags .SubtractOperands
  let mul := row.flags .MultiplyOperands
  { notLoadStore := !(ld || st)
    loadA := ld
    loadB := ld
    store := st
    addSubMul := add || sub || mul
    notAddSubMul := !(add || sub || mul)
    assertFlag := row.flags .Assert
    shouldJump := row.shouldJump
    virtualInstrNotLast := row.flags .VirtualInstruction && !row.flags .IsLastInSequence
    mustStartSequence := row.nextIsVirtual && !row.nextIsFirstInSequence }

/-- `eval_bz_first_group`. -/
def evalBzFirstGroup (row : R1CSCycleInputs) : BzFirstGroup where
  ramAddr := row.ramAddr
  ramReadMinusRamWrite := s64FromDiffU64s row.ramReadValue row.ramWriteValue
  ramReadMinusRdWrite := s64FromDiffU64s row.ramReadValue row.rdWriteValue
  rs2MinusRamWrite := s64FromDiffU64s row.rs2ReadValue row.ramWriteValue
  leftLookup := row.leftLookup
  leftLookupMinusLeftInput := s64FromDiffU64s row.leftLookup row.leftInput
  lookupOutputMinusOne := s64FromDiffU64s row.lookupOutput 1
  nextUnexpPcMinusLookupOutput := s64FromDiffU64s row.nextUnexpandedPc row.lookupOutput
  nextPcMinusPcPlusOne := s64FromDiffU64s row.nextPc (row.pc + 1)
  oneMinusDoNotUpdateUnexpandedPc := !row.flags .DoNotUpdateUnexpandedPC

/-- `eval_az_second_group`. -/
def evalAzSecondGroup (row : R1CSCycleInputs) : AzSecondGroup where
  loadOrStore := row.flags .Load || row.flags .Store
  add := row.flags .AddOperands
  sub := row.flags .SubtractOperands
  mul := row.flags .MultiplyOperands
  notAddSubMulAdvice := !(row.flags .AddOperands || row.flags .SubtractOperands ||
    row.flags .MultiplyOperands || row.flags .Advice)
  writeLookupToRd := row.flags .WriteLookupOutputToRD
  writePcToRd := row.flags .Jump
  shouldBranch := row.shouldBranch
  notJumpOrBranch := !row.flags .Jump && !row.shouldBranch

/-- `eval_bz_second_group`. -/
def evalBzSecondGroup (row : R1CSCycleInputs) : BzSecondGroup :=
  let rs1 : Int := row.rs1ReadValue.toNat
  let left : Int := row.leftInput.toNat
  let right := row.rightInput.toInt
  let expectedAddr := if row.imm.isPositive then i128 (rs1 + row.imm.magnitude.toNat)
    else i128 (rs1 - row.imm.magnitude.toNat)
  let rightAddExpected := i128 (left + right)
  let rightSubExpected := i128 (i128 (left - right) + 2 ^ 64)
  let s160 : Int → S160 := SignedMagnitude.ofInt 160
  let constTerm : Int := 4 - (if row.flags .IsCompressed then 2 else 0)
  let constTermNext : Int := 4 - (if row.flags .DoNotUpdateUnexpandedPC then 4 else 0) -
    (if row.flags .IsCompressed then 2 else 0)
  { ramAddrMinusRs1PlusImm := i128 (row.ramAddr.toNat - expectedAddr)
    rightLookupMinusAddResult := (s160 row.rightLookup.toNat).sub (s160 rightAddExpected)
    rightLookupMinusSubResult := (s160 row.rightLookup.toNat).sub (s160 rightSubExpected)
    rightLookupMinusProduct := (s160 row.rightLookup.toNat).sub (s160 row.product.toInt)
    rightLookupMinusRightInput := (s160 row.rightLookup.toNat).sub (s160 row.rightInput.toInt)
    rdWriteMinusLookupOutput := s64FromDiffU64s row.rdWriteValue row.lookupOutput
    rdWriteMinusPcPlusConst :=
      s64FromDiffU64s row.rdWriteValue (row.unexpandedPc + BitVec.ofInt 64 constTerm)
    nextUnexpPcMinusPcPlusImm :=
      i128 (row.nextUnexpandedPc.toNat - i128 (row.unexpandedPc.toNat + row.imm.toInt))
    nextUnexpPcMinusExpected :=
      s64FromDiffU64s row.nextUnexpandedPc (row.unexpandedPc + BitVec.ofInt 64 constTermNext) }

/-! ## Rows on which they agree -/

/-- What a row of a trace is. -/
structure Valid (row : R1CSCycleInputs) : Prop where
  loadStore : row.flags .Load → row.flags .Store → False
  operands : (row.flags .AddOperands).toNat + (row.flags .SubtractOperands).toNat +
    (row.flags .MultiplyOperands).toNat + (row.flags .Advice).toNat ≤ 1
  jumpBranch : row.flags .Jump → row.shouldBranch → False
  last : row.flags .IsLastInSequence → row.flags .VirtualInstruction
  first : row.nextIsFirstInSequence → row.nextIsVirtual
  pc : row.pc.toNat + 1 < 2 ^ 64
  unexpandedPc : row.unexpandedPc.toNat + 4 < 2 ^ 64
  compressed : row.flags .IsCompressed → row.flags .DoNotUpdateUnexpandedPC →
    2 ≤ row.unexpandedPc.toNat

/-- The values of the combinations of a group on a row. -/
def tableA (row : R1CSCycleInputs) (group : List NamedR1CSConstraint) : List Int :=
  group.map fun c => c.a.dotProduct row.inputValue 1

def tableB (row : R1CSCycleInputs) (group : List NamedR1CSConstraint) : List Int :=
  group.map fun c => c.b.dotProduct row.inputValue 1

theorem toNat_nor {a b : Bool} (h : a → b → False) :
    ((!a && !b).toNat : Int) = 1 - a.toNat - b.toNat := by
  cases a <;> cases b <;> simp at h ⊢

theorem toNat_or {a b : Bool} (h : a → b → False) :
    ((a || b).toNat : Int) = a.toNat + b.toNat := by
  cases a <;> cases b <;> simp at h ⊢

theorem toNat_or3 {a b c : Bool} (h : a.toNat + b.toNat + c.toNat ≤ 1) :
    ((a || b || c).toNat : Int) = a.toNat + b.toNat + c.toNat := by
  cases a <;> cases b <;> cases c <;> simp at h ⊢

theorem toNat_nor3 {a b c : Bool} (h : a.toNat + b.toNat + c.toNat ≤ 1) :
    ((!a && !b && !c).toNat : Int) = 1 - a.toNat - b.toNat - c.toNat := by
  cases a <;> cases b <;> cases c <;> simp at h ⊢

theorem toNat_nor4 {a b c d : Bool} (h : a.toNat + b.toNat + c.toNat + d.toNat ≤ 1) :
    ((!a && !b && !c && !d).toNat : Int) = 1 - a.toNat - b.toNat - c.toNat - d.toNat := by
  cases a <;> cases b <;> cases c <;> cases d <;> simp at h ⊢

theorem toNat_and_not {a b : Bool} (h : b → a) : ((a && !b).toNat : Int) = a.toNat - b.toNat := by
  cases a <;> cases b <;> simp at h ⊢

/-- The guards of the first group. -/
theorem azFirstGroup_eq {row : R1CSCycleInputs} (h : row.Valid) :
    row.evalAzFirstGroup.values = row.tableA r1csConstraintsFirstGroup := by
  have hoperands : (row.flags .AddOperands).toNat + (row.flags .SubtractOperands).toNat +
      (row.flags .MultiplyOperands).toNat ≤ 1 := le_trans (Nat.le_add_right _ _) h.operands
  simp only [AzFirstGroup.values, evalAzFirstGroup, tableA, r1csConstraintsFirstGroup,
    filterR1csConstraints, r1csConstraints, firstGroupLabels, eqConditional]
  simp [inputValue]
  exact ⟨toNat_nor h.loadStore, toNat_or3 hoperands, toNat_nor3 hoperands, toNat_and_not h.last,
    toNat_and_not h.first⟩

/-- The guards of the second group. -/
theorem azSecondGroup_eq {row : R1CSCycleInputs} (h : row.Valid) :
    row.evalAzSecondGroup.values = row.tableA r1csConstraintsSecondGroup := by
  simp only [AzSecondGroup.values, evalAzSecondGroup, tableA, r1csConstraintsSecondGroup,
    secondGroupLabels, filterR1csConstraints, r1csConstraints, firstGroupLabels, eqConditional]
  simp [inputValue]
  refine ⟨toNat_or h.loadStore, toNat_nor4 h.operands, ?_⟩
  rw [toNat_nor h.jumpBranch]
  ring

/-- The differences of the first group. -/
theorem bzFirstGroup_eq {row : R1CSCycleInputs} (h : row.Valid) :
    row.evalBzFirstGroup.values = row.tableB r1csConstraintsFirstGroup := by
  have hpc : ((row.pc.toNat : Int) + 1) % 18446744073709551616 = row.pc.toNat + 1 := by
    have hlt := h.pc
    omega
  have hnot : ((!row.flags .DoNotUpdateUnexpandedPC).toNat : Int) =
      1 - (row.flags .DoNotUpdateUnexpandedPC).toNat := by
    cases row.flags .DoNotUpdateUnexpandedPC <;> rfl
  simp only [BzFirstGroup.values, evalBzFirstGroup, tableB, r1csConstraintsFirstGroup,
    filterR1csConstraints, r1csConstraints, firstGroupLabels, eqConditional]
  simp [inputValue, toInt_s64FromDiffU64s]
  exact ⟨hpc, hnot⟩

/-- Values of at most 128 bits and a sign subtract without a cut. -/
theorem s160_sub {x y : Int} (hx : x.natAbs < 2 ^ 128) (hy : y.natAbs < 2 ^ 128) :
    ((SignedMagnitude.ofInt 160 x).sub (SignedMagnitude.ofInt 160 y)).toInt = x - y := by
  have hx' : (SignedMagnitude.ofInt 160 x).toInt = x := SignedMagnitude.toInt_ofInt (by omega)
  have hy' : (SignedMagnitude.ofInt 160 y).toInt = y := SignedMagnitude.toInt_ofInt (by omega)
  rw [SignedMagnitude.toInt_sub (by rw [hx', hy']; omega), hx', hy']

/-- The address under a signed immediate. -/
theorem expectedAddr_eq (rs1 : U64) (imm : S64) :
    (if imm.isPositive then i128 (rs1.toNat + imm.magnitude.toNat)
      else i128 (rs1.toNat - imm.magnitude.toNat)) = rs1.toNat + imm.toInt := by
  have hrs1 := rs1.isLt
  have himm := imm.magnitude.isLt
  unfold SignedMagnitude.toInt
  split_ifs
  · exact i128_eq (by omega) (by omega)
  · rw [i128_eq (by omega) (by omega)]
    ring

/-- The differences of the second group. -/
theorem bzSecondGroup_eq {row : R1CSCycleInputs} (h : row.Valid) :
    row.evalBzSecondGroup.values = row.tableB r1csConstraintsSecondGroup := by
  have hleft := row.leftInput.isLt
  have hright := row.rightInput.natAbs_toInt_lt
  have hlookup := row.rightLookup.isLt
  have hproduct := row.product.natAbs_toInt_lt
  have himm := row.imm.natAbs_toInt_lt
  have hrs1 := row.rs1ReadValue.isLt
  have haddress := row.ramAddr.isLt
  have hnext := row.nextUnexpandedPc.isLt
  have hpc := h.unexpandedPc
  have haddr : i128 (row.ramAddr.toNat - (row.rs1ReadValue.toNat + row.imm.toInt)) =
      row.ramAddr.toNat - (row.rs1ReadValue.toNat + row.imm.toInt) := i128_eq (by omega) (by omega)
  have hsum : i128 (row.leftInput.toNat + row.rightInput.toInt) =
      row.leftInput.toNat + row.rightInput.toInt := i128_eq (by omega) (by omega)
  have hdiff : i128 (row.leftInput.toNat - row.rightInput.toInt) =
      row.leftInput.toNat - row.rightInput.toInt := i128_eq (by omega) (by omega)
  have hdiff' : i128 (row.leftInput.toNat - row.rightInput.toInt + 18446744073709551616) =
      row.leftInput.toNat - row.rightInput.toInt + 18446744073709551616 :=
    i128_eq (by omega) (by omega)
  have hbranch : i128 (row.unexpandedPc.toNat + row.imm.toInt) = row.unexpandedPc.toNat + row.imm.toInt :=
    i128_eq (by omega) (by omega)
  have hbranch' : i128 (row.nextUnexpandedPc.toNat - (row.unexpandedPc.toNat + row.imm.toInt)) =
      row.nextUnexpandedPc.toNat - (row.unexpandedPc.toNat + row.imm.toInt) :=
    i128_eq (by omega) (by omega)
  simp only [BzSecondGroup.values, evalBzSecondGroup, tableB, r1csConstraintsSecondGroup,
    secondGroupLabels, filterR1csConstraints, r1csConstraints, firstGroupLabels, eqConditional]
  simp [inputValue, toInt_s64FromDiffU64s, expectedAddr_eq]
  rw [hdiff, hsum, hdiff', hbranch, hbranch', haddr]
  refine ⟨rfl, s160_sub (by omega) (by omega), s160_sub (by omega) (by omega),
    s160_sub (by omega) (by omega), s160_sub (by omega) (by omega), ?_, rfl, ?_⟩
  · cases row.flags .IsCompressed
    · simp
      omega
    · simp
      omega
  · have hcompressed := h.compressed
    cases hc : row.flags .IsCompressed <;> cases hd : row.flags .DoNotUpdateUnexpandedPC
    · simp
      omega
    · simp
      omega
    · simp
      omega
    · have htwo := hcompressed hc hd
      simp
      omega

end R1CSCycleInputs

/-! ## The rows of a trace -/

theorem BasicOp.load_not_store (op : BasicOp) (hload : .Load ∈ op.circuitFlags) :
    .Store ∉ op.circuitFlags := by
  cases op with
  | r op o | i op o | assert op o => cases op <;> simp [circuitFlags] at hload
  | _ => simp [circuitFlags] at hload ⊢

theorem BasicOp.one_operand_flag (op : BasicOp) :
    (decide (.AddOperands ∈ op.circuitFlags)).toNat + (decide (.SubtractOperands ∈ op.circuitFlags)).toNat +
      (decide (.MultiplyOperands ∈ op.circuitFlags)).toNat + (decide (.Advice ∈ op.circuitFlags)).toNat ≤ 1 := by
  cases op with
  | r op o | i op o | assert op o => cases op <;> simp [circuitFlags]
  | _ => simp [circuitFlags]

theorem BasicOp.jump_not_branch (op : BasicOp) (hjump : .Jump ∈ op.circuitFlags) :
    .Branch ∉ op.instructionFlags := by
  cases op with
  | r op o | i op o | assert op o => cases op <;> simp [circuitFlags] at hjump
  | u op o => cases op <;> simp [circuitFlags] at hjump
  | _ => simp [circuitFlags, instructionFlags] at hjump ⊢

theorem BasicInstruction.last_is_virtual {i : BasicInstruction} (h : i.circuitFlags .IsLastInSequence) :
    i.circuitFlags .VirtualInstruction := by
  simp only [circuitFlags] at h ⊢
  split at h
  next o hop =>
    have hremaining : i.virtualSequenceRemaining = .some 0 := by simpa using h
    simp [hop, BasicOp.marksSequence, hremaining]
  · exact absurd h Bool.false_ne_true

/-- A cycle that starts a sequence is of an instruction of a sequence. -/
def Cycle.Marked (c : Cycle) : Prop :=
  c.instruction.circuitFlags .IsFirstInSequence → c.instruction.circuitFlags .VirtualInstruction

theorem BasicOp.marksSequence_withRd (rd : Nat) (op : BasicOp) :
    (op.withRd rd).marksSequence = op.marksSequence := by
  cases op <;> rfl

/-- So are the cycles of a finalized sequence, whose instructions all set the flags
of their place. -/
theorem BasicInstruction.finalize_marked {address : U64} {isCompressed : Bool} {ops : List BasicOp}
    (hops : ∀ op ∈ ops, op.marksSequence ∨ op = .noOp) {i : BasicInstruction}
    (h : i ∈ finalize address isCompressed ops) {c : Cycle} (hc : c.instruction = i.inlineSequence) :
    c.Marked := by
  have hop : i.op.marksSequence ∨ i.op = .noOp := by
    have hmem := List.mem_map_of_mem (f := (·.op)) h
    rw [finalize_ops] at hmem
    exact hops i.op hmem
  have hremaining : i.virtualSequenceRemaining.isSome := by
    obtain ⟨n, hn, rfl⟩ := List.mem_mapIdx.mp h
    rfl
  have hplace {j : BasicInstruction} (hj : j.op.marksSequence ∨ j.op = .noOp)
      (hremaining : j.virtualSequenceRemaining.isSome) :
      j.circuitFlags .IsFirstInSequence → j.circuitFlags .VirtualInstruction := by
    rcases hj with hj | hj
    · exact fun _ => by simp [circuitFlags, hj, hremaining]
    · exact fun hfirst => by simp [circuitFlags, hj] at hfirst
  rw [Cycle.Marked, hc, inlineSequence]
  split_ifs with hrd
  · split
    case h_1 o hebreak => simp [hebreak, BasicOp.marksSequence] at hop
    case h_2 =>
      split_ifs
      · refine hplace (hop.imp ?_ ?_) hremaining
        · exact fun hmarks => by rwa [← BasicOp.marksSequence_withRd firstVirtualRegister] at hmarks
        · exact fun hnoOp => by simp [hnoOp, BasicOp.withRd]
      · exact fun hfirst => by simp [circuitFlags, nop] at hfirst
  · exact hplace hop hremaining

theorem BytecodePreprocessing.getPc_bounds {b : BytecodePreprocessing} {c : Cycle} {pc : U64}
    (h : b.getPc c = .some pc) :
    pc.toNat + 1 < 2 ^ 64 ∧ c.unexpandedPc.toNat + 4 < 2 ^ 64 ∧
      (c.instruction.op ≠ .noOp → 2 ≤ c.unexpandedPc.toNat) := by
  unfold getPc at h
  unfold Cycle.unexpandedPc
  split_ifs at h ⊢ with hop
  · cases h
    exact ⟨by decide, by decide, fun hne => absurd hop hne⟩
  · obtain ⟨hlow, haddress, hpc⟩ := BytecodePCMapper.getPc_bounds h
    exact ⟨hpc, haddress, fun _ => by omega⟩

namespace R1CSCycleInputs

theorem fromTrace_valid {b : BytecodePreprocessing} {cycles : List Cycle} {t : Nat}
    {row : R1CSCycleInputs} (hmarked : ∀ c ∈ cycles, c.Marked)
    (h : fromTrace b cycles t = .some row) : row.Valid := by
  simp only [fromTrace, Option.bind_eq_bind, Option.bind_eq_some_iff] at h
  obtain ⟨cycle, hcycle, ⟨left, right⟩, -, ⟨leftLookup, rightLookup⟩, -, output, -, pc, hpc, nextPc, -,
    hrow⟩ := h
  cases hrow
  obtain ⟨hpcBound, haddress, hlow⟩ := BytecodePreprocessing.getPc_bounds hpc
  refine ⟨?_, ?_, ?_, BasicInstruction.last_is_virtual, ?_, hpcBound, haddress, ?_⟩
  · intro hload hstore
    simp only [BasicInstruction.circuitFlags, decide_eq_true_eq] at hload hstore
    exact BasicOp.load_not_store _ hload hstore
  · simp only [BasicInstruction.circuitFlags]
    exact BasicOp.one_operand_flag _
  · intro hjump hbranch
    simp only [BasicInstruction.circuitFlags, decide_eq_true_eq, Bool.and_eq_true] at hjump hbranch
    exact BasicOp.jump_not_branch _ hjump hbranch.1
  · intro hfirst
    cases hnext : cycles[t + 1]? with
    | none => simp [hnext] at hfirst
    | some next =>
      simp only [hnext, Option.map_some, Option.getD_some] at hfirst ⊢
      exact hmarked next (List.mem_of_getElem? hnext) hfirst
  · intro hcompressed _
    refine hlow fun hop => ?_
    simp [BasicInstruction.circuitFlags, hop] at hcompressed

end R1CSCycleInputs

/-! ## Weighted sums -/

section Weights

variable {F : Type} [JoltField F]

/-- The sum of values under weights. -/
def weightedSum (w : List F) (values : List F) : F := (List.zipWith (· * ·) w values).sum

/-- `fmadd_at_r` of a group, into an accumulator. -/
def fmaddAtR (w : List F) (values : List Int) (acc : F) : F :=
  (w.zip values).foldl (fun acc (w, value) => acc + w * (value : F)) acc

theorem fmaddAtR_eq (w : List F) (values : List Int) (acc : F) :
    fmaddAtR w values acc = acc + weightedSum w (values.map fun v : Int => (v : F)) := by
  unfold fmaddAtR weightedSum
  induction w generalizing values acc with
  | nil => simp
  | cons x w ih =>
    cases values with
    | nil => simp
    | cons v values =>
      simp only [List.zip_cons_cons, List.foldl_cons, ih, List.map_cons, List.zipWith_cons_cons,
        List.sum_cons]
      ring

/-- The weighted sum of a group at the values of the inputs. -/
def LC.weightedDot (lcs : List LC) (w : List F) (z : JoltR1CSInputs → F) (one : F) : F :=
  weightedSum w (lcs.map fun lc => lc.dotProduct z one)

/-- A combination of the points takes that of the weighted sums. -/
theorem LC.weightedDot_sum {ι : Type} (lcs : List LC) (w : List F) (s : List ι) (k : ι → F)
    (z : ι → JoltR1CSInputs → F) (one : ι → F) :
    weightedDot lcs w (fun input => (s.map fun i => k i * z i input).sum) (s.map fun i => k i * one i).sum =
      (s.map fun i => k i * weightedDot lcs w (z i) (one i)).sum := by
  induction lcs generalizing w with
  | nil => simp [weightedDot, weightedSum]
  | cons lc lcs ih =>
    cases w with
    | nil => simp [weightedDot, weightedSum]
    | cons x w =>
      have hcons (z : JoltR1CSInputs → F) (one : F) : weightedDot (lc :: lcs) (x :: w) z one =
          x * lc.dotProduct z one + weightedDot lcs w z one := by
        simp [weightedDot, weightedSum]
      simp only [hcons, ih, dotProduct_sum, mul_add, List.sum_map_add, ← List.sum_map_mul_left]
      congr 2
      refine List.map_congr_left fun i _ => ?_
      ring

/-- The value of a combination on a row is that of its field values. -/
theorem LC.cast_dotProduct (lc : LC) (z : JoltR1CSInputs → Int) :
    ((lc.dotProduct z 1 : Int) : F) = lc.dotProduct (fun input => (z input : F)) 1 := by
  obtain ⟨terms, const⟩ := lc
  have hterms : (((terms.map fun t => ((t.2 : Int)) * z t.1).sum : Int) : F) =
      (terms.map fun t => ((t.2 : Int) : F) * ((z t.1 : Int) : F)).sum := by
    induction terms with
    | nil => simp
    | cons t terms ih => simp only [List.map_cons, List.sum_cons, Int.cast_add, Int.cast_mul, ih]
  simp only [dotProduct, Int.cast_id, mul_one, Int.cast_add, hterms]

theorem weightedSum_append {u v x y : List F} (h : u.length = x.length) :
    weightedSum (u ++ v) (x ++ y) = weightedSum u x + weightedSum v y := by
  rw [weightedSum, List.zipWith_append h, List.sum_append]
  rfl

/-- The weights of pairs: those of the places, each split in two. -/
theorem weightedSum_tensor_pair {α : Type} (k : List F) (r : F) (s : List α) (f g : α → F) :
    weightedSum (tensor k (eqPair r)) (s.flatMap fun i => [f i, g i]) =
      weightedSum k (s.map fun i => f i + r * (g i - f i)) := by
  induction k generalizing s with
  | nil => simp [weightedSum]
  | cons x k ih =>
    cases s with
    | nil => simp [weightedSum]
    | cons i s =>
      rw [tensor_cons, List.flatMap_cons, weightedSum_append (by simp [eqPair]), ih]
      simp only [weightedSum, eqPair, List.map_cons, List.map_nil, List.zipWith_cons_cons,
        List.zipWith_nil_left, List.sum_cons, List.sum_nil]
      ring

theorem weightedSum_blend {α : Type} (k : List F) (r : F) (s : List α) (f g : α → F) :
    weightedSum k (s.map fun i => f i + r * (g i - f i)) =
      weightedSum k (s.map f) + r * (weightedSum k (s.map g) - weightedSum k (s.map f)) := by
  induction k generalizing s with
  | nil => simp [weightedSum]
  | cons x k ih =>
    cases s with
    | nil => simp [weightedSum]
    | cons i s =>
      have hrest := ih s
      simp only [weightedSum] at hrest
      simp only [weightedSum, List.map_cons, List.zipWith_cons_cons, List.sum_cons, hrest]
      ring

end Weights

/-! ## The prover's polynomials and the verifier's evaluation -/

section Evaluation

variable {F : Type} [JoltField F]

namespace R1CSCycleInputs

/-- The field values of the inputs on a row. -/
def fieldValue (row : R1CSCycleInputs) (input : JoltR1CSInputs) : F := (row.inputValue input : F)

/-- `az_at_r_first_group`, `az_at_r_second_group`: the prover's Az of the two
groups, of which the lowest variable selects one. -/
def azAtR (w : List F) (row : R1CSCycleInputs) : List F :=
  [fmaddAtR w row.evalAzFirstGroup.values 0, fmaddAtR w row.evalAzSecondGroup.values 0]

/-- `bz_at_r_first_group`, `bz_at_r_second_group`. -/
def bzAtR (w : List F) (row : R1CSCycleInputs) : List F :=
  [fmaddAtR w row.evalBzFirstGroup.values 0, fmaddAtR w row.evalBzSecondGroup.values 0]

end R1CSCycleInputs

/-- The multilinear extension of a table at a point. -/
def mleEval (point : List F) (table : List F) : F := weightedSum (eqTable point) table

/-- `evaluate_inner_sum_product_at_point`, with the Lagrange weights of `r0`. -/
def evaluateInnerSumProductAtPoint (rStream : F) (w : List F) (z : JoltR1CSInputs → F) : F :=
  let first := r1csConstraintsFirstGroup
  let second := r1csConstraintsSecondGroup
  let azG0 := LC.weightedDot (first.map (·.a)) w z 1
  let bzG0 := LC.weightedDot (first.map (·.b)) w z 1
  let azG1 := LC.weightedDot (second.map (·.a)) w z 1
  let bzG1 := LC.weightedDot (second.map (·.b)) w z 1
  (azG0 + rStream * (azG1 - azG0)) * (bzG0 + rStream * (bzG1 - bzG0))

/-- The extension of a group's weighted sums is the weighted sum at the extensions
of the inputs. -/
theorem mleEval_weightedDot (lcs : List LC) (w point : List F) (rows : List R1CSCycleInputs)
    (h : rows.length = 2 ^ point.length) :
    mleEval point (rows.map fun row => LC.weightedDot lcs w row.fieldValue 1) =
      LC.weightedDot lcs w (fun input => mleEval point (rows.map fun row => row.fieldValue input)) 1 := by
  have hzip (f : R1CSCycleInputs → F) : mleEval point (rows.map f) =
      (((eqTable point).zip rows).map fun i => i.1 * f i.2).sum := by
    rw [mleEval, weightedSum, List.zipWith_map_right, ← List.map_uncurry_zip_eq_zipWith]
    rfl
  have hone : (1 : F) = (((eqTable point).zip rows).map fun i => i.1 * 1).sum := by
    have hfst := @List.map_fst_zip _ _ (eqTable point) rows (by rw [length_eqTable, h])
    simp only [mul_one]
    rw [hfst, sum_eqTable]
  have hsum := LC.weightedDot_sum lcs w ((eqTable point).zip rows) (fun i => i.1)
    (fun i => i.2.fieldValue) (fun _ => 1)
  rw [← hone] at hsum
  simp only [hzip]
  exact hsum.symm

namespace R1CSCycleInputs

/-- The field values of the two sides of a group on a row. -/
def fieldA (row : R1CSCycleInputs) (group : List NamedR1CSConstraint) : List F :=
  group.map fun c => c.a.dotProduct row.fieldValue 1

def fieldB (row : R1CSCycleInputs) (group : List NamedR1CSConstraint) : List F :=
  group.map fun c => c.b.dotProduct row.fieldValue 1

theorem fieldA_eq (row : R1CSCycleInputs) (group : List NamedR1CSConstraint) :
    row.fieldA group = (row.tableA group).map fun v : Int => (v : F) := by
  rw [fieldA, tableA, List.map_map]
  exact List.map_congr_left fun c _ => (c.a.cast_dotProduct row.inputValue).symm

theorem fieldB_eq (row : R1CSCycleInputs) (group : List NamedR1CSConstraint) :
    row.fieldB group = (row.tableB group).map fun v : Int => (v : F) := by
  rw [fieldB, tableB, List.map_map]
  exact List.map_congr_left fun c _ => (c.b.cast_dotProduct row.inputValue).symm

/-- The row's evaluators, and their sums under weights, are the table's. -/
structure MatchesTable (row : R1CSCycleInputs) (w : List F) : Prop where
  azFirst : (row.evalAzFirstGroup.values.map fun v : Int => (v : F)) = row.fieldA r1csConstraintsFirstGroup
  bzFirst : (row.evalBzFirstGroup.values.map fun v : Int => (v : F)) = row.fieldB r1csConstraintsFirstGroup
  azSecond :
    (row.evalAzSecondGroup.values.map fun v : Int => (v : F)) = row.fieldA r1csConstraintsSecondGroup
  bzSecond :
    (row.evalBzSecondGroup.values.map fun v : Int => (v : F)) = row.fieldB r1csConstraintsSecondGroup
  fmaddAz : ∀ acc, fmaddAtR w row.evalAzFirstGroup.values acc =
    acc + weightedSum w (row.fieldA r1csConstraintsFirstGroup)
  fmaddBz : ∀ acc, fmaddAtR w row.evalBzFirstGroup.values acc =
    acc + weightedSum w (row.fieldB r1csConstraintsFirstGroup)
  fmaddAzSecond : ∀ acc, fmaddAtR w row.evalAzSecondGroup.values acc =
    acc + weightedSum w (row.fieldA r1csConstraintsSecondGroup)
  fmaddBzSecond : ∀ acc, fmaddAtR w row.evalBzSecondGroup.values acc =
    acc + weightedSum w (row.fieldB r1csConstraintsSecondGroup)

theorem matchesTable {row : R1CSCycleInputs} (h : row.Valid) (w : List F) : row.MatchesTable w := by
  have hazFirst : (row.evalAzFirstGroup.values.map fun v : Int => (v : F)) =
      row.fieldA r1csConstraintsFirstGroup := by rw [fieldA_eq, azFirstGroup_eq h]
  have hbzFirst : (row.evalBzFirstGroup.values.map fun v : Int => (v : F)) =
      row.fieldB r1csConstraintsFirstGroup := by rw [fieldB_eq, bzFirstGroup_eq h]
  have hazSecond : (row.evalAzSecondGroup.values.map fun v : Int => (v : F)) =
      row.fieldA r1csConstraintsSecondGroup := by rw [fieldA_eq, azSecondGroup_eq h]
  have hbzSecond : (row.evalBzSecondGroup.values.map fun v : Int => (v : F)) =
      row.fieldB r1csConstraintsSecondGroup := by rw [fieldB_eq, bzSecondGroup_eq h]
  refine ⟨hazFirst, hbzFirst, hazSecond, hbzSecond, ?_, ?_, ?_, ?_⟩
  · intro acc
    rw [fmaddAtR_eq, hazFirst]
  · intro acc
    rw [fmaddAtR_eq, hbzFirst]
  · intro acc
    rw [fmaddAtR_eq, hazSecond]
  · intro acc
    rw [fmaddAtR_eq, hbzSecond]

theorem azAtR_eq {row : R1CSCycleInputs} (h : row.Valid) (w : List F) : row.azAtR w =
    [LC.weightedDot (r1csConstraintsFirstGroup.map (·.a)) w row.fieldValue 1,
      LC.weightedDot (r1csConstraintsSecondGroup.map (·.a)) w row.fieldValue 1] := by
  have hmatches := matchesTable h w
  simp only [azAtR, hmatches.fmaddAz, hmatches.fmaddAzSecond, zero_add, fieldA, LC.weightedDot,
    List.map_map, Function.comp_def]

theorem bzAtR_eq {row : R1CSCycleInputs} (h : row.Valid) (w : List F) : row.bzAtR w =
    [LC.weightedDot (r1csConstraintsFirstGroup.map (·.b)) w row.fieldValue 1,
      LC.weightedDot (r1csConstraintsSecondGroup.map (·.b)) w row.fieldValue 1] := by
  have hmatches := matchesTable h w
  simp only [bzAtR, hmatches.fmaddBz, hmatches.fmaddBzSecond, zero_add, fieldB, LC.weightedDot,
    List.map_map, Function.comp_def]

end R1CSCycleInputs

/-- The extension of the pairs of two groups' sums, at the groups' variable. -/
theorem mleEval_pairs (lcs lcs' : List LC) (w rCycle : List F) (rStream : F)
    (rows : List R1CSCycleInputs) (h : rows.length = 2 ^ rCycle.length) :
    mleEval (rCycle ++ [rStream]) (rows.flatMap fun row =>
        [LC.weightedDot lcs w row.fieldValue 1, LC.weightedDot lcs' w row.fieldValue 1]) =
      LC.weightedDot lcs w (fun input => mleEval rCycle (rows.map fun row => row.fieldValue input)) 1 +
        rStream *
          (LC.weightedDot lcs' w (fun input => mleEval rCycle (rows.map fun row => row.fieldValue input)) 1 -
            LC.weightedDot lcs w (fun input => mleEval rCycle (rows.map fun row => row.fieldValue input)) 1) := by
  rw [← mleEval_weightedDot lcs w rCycle rows h, ← mleEval_weightedDot lcs' w rCycle rows h, mleEval,
    eqTable_append, eqTable_singleton, weightedSum_tensor_pair]
  exact weightedSum_blend (eqTable rCycle) rStream rows _ _

/-- **On a trace whose first instructions of a sequence are instructions of a
sequence, the evaluators have in each position the field value of the table's
combination, their sums under weights are the table's, and the verifier's product
at the extensions of the inputs is the product of the extensions of the prover's Az
and Bz.** -/
theorem R1CSCycleInputs.evaluators_match_table {b : BytecodePreprocessing} {cycles : List Cycle}
    (hmarked : ∀ c ∈ cycles, c.Marked) (w : List F) :
    (∀ t row, fromTrace b cycles t = .some row → row.MatchesTable w) ∧
    ∀ (rows : List R1CSCycleInputs) (rCycle : List F) (rStream : F),
      rows.map .some = (List.range cycles.length).map (fromTrace b cycles) →
      cycles.length = 2 ^ rCycle.length →
      evaluateInnerSumProductAtPoint rStream w
          (fun input => mleEval rCycle (rows.map fun row => row.fieldValue input)) =
        mleEval (rCycle ++ [rStream]) (rows.flatMap (azAtR w)) *
          mleEval (rCycle ++ [rStream]) (rows.flatMap (bzAtR w)) := by
  refine ⟨fun t row h => matchesTable (fromTrace_valid hmarked h) w, ?_⟩
  intro rows rCycle rStream hrows hlength
  have hvalid (row : R1CSCycleInputs) (hrow : row ∈ rows) : row.Valid := by
    have hmem : Option.some row ∈ rows.map Option.some := List.mem_map_of_mem hrow
    rw [hrows] at hmem
    obtain ⟨t, -, ht⟩ := List.mem_map.mp hmem
    exact fromTrace_valid hmarked ht
  have hlen : rows.length = 2 ^ rCycle.length := by
    have hmaps := congrArg List.length hrows
    simp only [List.length_map, List.length_range] at hmaps
    rw [hmaps, hlength]
  have haz := List.flatMap_congr fun row hrow => azAtR_eq (hvalid row hrow) w
  have hbz := List.flatMap_congr fun row hrow => bzAtR_eq (hvalid row hrow) w
  rw [haz, hbz, mleEval_pairs _ _ w rCycle rStream rows hlen, mleEval_pairs _ _ w rCycle rStream rows hlen]
  rfl

/-- An `AMOADD.D` of 4 to a doubleword that holds 3: the cycle that makes the 4, those of the
sequence, and the no-ops that pad the trace. -/
def amoCycles : List Cycle :=
  let noOp : Cycle := ⟨⟨.noOp, 0, .none, false, false⟩, .none, .none, .none, .noOp⟩
  let amo := BasicInstruction.finalize 0x80000004 false (AMOADDD.inlineSequence ⟨5, 10, 6⟩ 40)
  ⟨⟨.i .ADDI ⟨6, 0, 4⟩, 0x80000000, .none, false, false⟩, .some 0, .none, .some (0, 4), .noOp⟩ ::
    List.zipWith (fun i (cycle : BasicInstruction → Cycle) => cycle i) amo [
      (⟨·, .some 0x80000100, .none, .some (0, 3), .read ⟨0x80000100, 3⟩⟩),
      (⟨·, .some 3, .some 4, .some (0, 7), .noOp⟩),
      (⟨·, .some 0x80000100, .some 7, .none, .write ⟨0x80000100, 3, 7⟩⟩),
      (⟨·, .some 3, .none, .some (0, 3), .noOp⟩)] ++
    [noOp, noOp, noOp]

/-- Its bytecode: an instruction, then a sequence of four. -/
def amoBytecode : BytecodePreprocessing := ⟨⟨[.none, .some (1, 0), .none, .some (2, 3)], by decide, by simp⟩⟩

theorem R1CSCycleInputs.evaluators_match_table_amo : ∃ rows : List R1CSCycleInputs,
    rows.map .some = (List.range 8).map (fromTrace amoBytecode amoCycles) ∧
    (∀ row ∈ rows, row.MatchesTable ([1, 2, 3] : List (ZMod 7))) ∧
    evaluateInnerSumProductAtPoint 5 ([1, 2, 3] : List (ZMod 7))
        (fun input => mleEval [2, 3, 4] (rows.map fun row => row.fieldValue input)) =
      mleEval [2, 3, 4, 5] (rows.flatMap (azAtR [1, 2, 3])) *
        mleEval [2, 3, 4, 5] (rows.flatMap (bzAtR [1, 2, 3])) := by
  have hmarked : ∀ c ∈ amoCycles,
      c.instruction.circuitFlags .IsFirstInSequence → c.instruction.circuitFlags .VirtualInstruction := by
    decide
  obtain ⟨hmatches, hproduct⟩ := evaluators_match_table (b := amoBytecode) hmarked ([1, 2, 3] : List (ZMod 7))
  obtain ⟨rows, hrows⟩ : ∃ rows : List R1CSCycleInputs,
      rows.map Option.some = (List.range 8).map (fromTrace amoBytecode amoCycles) :=
    ⟨[_, _, _, _, _, _, _, _], rfl⟩
  refine ⟨rows, hrows, ?_, hproduct rows [2, 3, 4] 5 hrows rfl⟩
  intro row hrow
  have hmem := List.mem_map_of_mem (f := Option.some) hrow
  rw [hrows] at hmem
  obtain ⟨t, -, ht⟩ := List.mem_map.mp hmem
  exact hmatches t row ht

/-- A fence marked as the first of a sequence, after a no-op: of the last guard of
the first group the evaluator makes zero, the table minus one. -/
theorem R1CSCycleInputs.evaluator_differs_at_marked_fence :
    let noOp : Cycle := ⟨⟨.noOp, 0, .none, false, false⟩, .none, .none, .none, .noOp⟩
    let fence : Cycle := ⟨⟨.FENCE, 0x80000000, .none, true, false⟩, .none, .none, .none, .noOp⟩
    let b : BytecodePreprocessing := ⟨⟨[.none, .some (1, 0)], by decide, by simp⟩⟩
    ∃ row, fromTrace b [noOp, fence] 0 = .some row ∧
      (row.evalAzFirstGroup.values.map fun v : Int => (v : ZMod 7)) ≠
        row.fieldA r1csConstraintsFirstGroup := by
  refine ⟨_, rfl, ?_⟩
  decide

end Evaluation

end LightningJolt
