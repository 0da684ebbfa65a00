/-
Lookup queries against execution: the index of a query, the table's entry at
it, and what `exec` made of the same operands.
-/
import LightningJolt.LookupQuery
import LightningJolt.LookupEntry

namespace LightningJolt

/-! ## Operands in 64 bits and in 128 -/

section Widths

variable (x y : U64)

theorem ofInt_toNat : BitVec.ofInt 64 (y.toNat : Int) = y := by
  rw [BitVec.ofInt_natCast, BitVec.ofNat_toNat, BitVec.setWidth_eq]

theorem low_setWidth : (y.setWidth 128).setWidth 64 = y := by
  rw [BitVec.setWidth_setWidth_of_le _ (by decide), BitVec.setWidth_eq]

theorem low_add : (x.setWidth 128 + y.setWidth 128).setWidth 64 = x + y := by
  rw [BitVec.setWidth_add _ _ (by decide), low_setWidth, low_setWidth]

theorem low_mul : (x.setWidth 128 * y.setWidth 128).setWidth 64 = x * y := by
  rw [BitVec.setWidth_mul _ _ (by decide), low_setWidth, low_setWidth]

theorem low_ofInt (z : Int) : (BitVec.ofInt 128 z).setWidth 64 = BitVec.ofInt 64 z := by
  have hdvd : ((2 ^ 64 : Nat) : Int) ∣ ((2 ^ 128 : Nat) : Int) :=
    Int.natCast_dvd_natCast.mpr (pow_dvd_pow 2 (by decide))
  have hpos : 0 ≤ z % ((2 ^ 128 : Nat) : Int) := Int.emod_nonneg _ (by positivity)
  refine BitVec.eq_of_toNat_eq ?_
  rw [BitVec.toNat_setWidth, BitVec.toNat_ofInt, BitVec.toNat_ofInt,
    ← Int.emod_emod_of_dvd z hdvd, Int.toNat_emod hpos (by positivity), Int.toNat_natCast]

theorem low_signedAdd (z : Int) :
    (BitVec.ofInt 128 (x.toNat + z)).setWidth 64 = x + BitVec.ofInt 64 z := by
  rw [low_ofInt, BitVec.ofInt_add, ofInt_toNat]

theorem low_sub :
    (x.setWidth 128 + ((1 : U128) <<< 64 - BitVec.ofInt 128 y.toNat)).setWidth 64 = x - y := by
  have hone : ((1 : U128) <<< 64).setWidth 64 = (0 : U64) := by decide
  rw [BitVec.sub_eq_add_neg, BitVec.setWidth_add _ _ (by decide), BitVec.setWidth_add _ _ (by decide),
    BitVec.setWidth_neg_of_le (by decide), hone, low_setWidth, low_ofInt, ofInt_toNat,
    BitVec.sub_eq_add_neg]
  congr 1
  exact BitVec.zero_add _

/-- An index agrees with its low word modulo the powers of two up to `2 ^ 64`. -/
theorem toNat_mod_of_low {index : U128} (h : index.setWidth 64 = x) {m : Nat} (hm : m ∣ 2 ^ 64) :
    index.toNat % m = x.toNat % m := by
  rw [← h, BitVec.toNat_setWidth, Nat.mod_mod_of_dvd _ hm]

end Widths

/-- The half with its sign spread is the word sign-extended. -/
theorem signExtendHalf_low (a : U64) :
    signExtendHalf (a &&& ((1 : U64) <<< 32 - 1)) = signExtendWord a := by
  have hmask : ∀ i < 64, ((1 : U64) <<< 32 - 1).getLsbD i = decide (i < 32) := by decide
  have hhigh : ∀ i < 64, (((1 : U64) <<< 32 - 1) <<< 32).getLsbD i = decide (32 ≤ i) := by
    decide
  have hone : ∀ i < 64, (1 : U64).getLsbD i = decide (i = 0) := by decide
  have hsign : ((a &&& ((1 : U64) <<< 32 - 1)) >>> 31) &&& 1 = 1 ↔ a.getLsbD 31 = true := by
    constructor
    · intro h
      have hbit := congrArg (fun v => v.getLsbD 0) h
      simpa [hmask] using hbit
    · intro h
      refine BitVec.eq_of_getLsbD_eq fun i hi => ?_
      rw [BitVec.getLsbD_and, hone i hi]
      by_cases hi0 : i = 0
      · subst hi0
        simp [h]
      · simp [hi0]
  have hmsb : (lowWord a).msb = a.getLsbD 31 := by simp [lowWord, BitVec.msb_setWidth]
  refine BitVec.eq_of_getLsbD_eq fun i hi => ?_
  rw [show signExtendWord a = (lowWord a).signExtend 64 from rfl, BitVec.getLsbD_signExtend,
    signExtendHalf, hmsb, lowWord, BitVec.getLsbD_setWidth]
  simp only [hsign]
  cases a.getLsbD 31 with
  | false =>
    rw [if_neg Bool.false_ne_true, BitVec.getLsbD_and, hmask i hi]
    by_cases h : i < 32 <;> simp [hi, h]
  | true =>
    rw [if_pos rfl, BitVec.getLsbD_or, BitVec.getLsbD_and, hmask i hi, hhigh i hi]
    by_cases h : i < 32
    · simp [hi, h]
    · simp [hi, h, Nat.not_lt.mp h]

theorem shiftRightBitmask_entry {s : Nat} (hs : s < 64) :
    (((1 : U128) <<< (64 - s) - 1).setWidth 64) <<< s = shiftRightBitmask s := by
  have h : ∀ s : Fin 64, (((1 : U128) <<< (64 - s.val) - 1).setWidth 64) <<< s.val =
      shiftRightBitmask s := by
    decide
  exact h ⟨s, hs⟩

theorem lowerHalf_entry {index : U128} {x : U64} (h : index.setWidth 64 = x) :
    BitVec.ofNat 64 (index.toNat % 2 ^ 32) = x &&& ((1 : U64) <<< 32 - 1) := by
  have hmask : ((1 : U64) <<< 32 - 1).toNat = 2 ^ 32 - 1 := by decide
  refine BitVec.eq_of_toNat_eq ?_
  rw [BitVec.toNat_and, hmask, Nat.and_two_pow_sub_one_eq_mod, BitVec.toNat_ofNat,
    toNat_mod_of_low x h (pow_dvd_pow 2 (by decide))]
  exact Nat.mod_eq_of_lt (lt_trans (Nat.mod_lt _ (by decide)) (by decide))

theorem boolEntry_decide (p : Prop) [Decidable p] : boolEntry (decide p) = if p then 1 else 0 := by
  by_cases h : p <;> simp [boolEntry, h]

/-- The top bit of an index is that of its left operand. -/
theorem interleave_top (x y : U64) :
    interleaveBits x y &&& (1 : U128) <<< 127 ≠ 0 ↔ x &&& (1 : U64) <<< 63 ≠ 0 := by
  have hx : x &&& (1 : U64) <<< 63 = if x.getLsbD 63 then BitVec.twoPow 64 63 else 0 :=
    BitVec.and_twoPow x 63
  have hindex : interleaveBits x y &&& (1 : U128) <<< 127 =
      if x.getLsbD 63 then BitVec.twoPow 128 127 else 0 := by
    rw [← (getLsbD_interleaveBits x y (show 63 < 64 by decide)).2]
    exact BitVec.and_twoPow _ 127
  rw [hx, hindex]
  cases x.getLsbD 63 with
  | false => exact iff_of_false (fun h => h rfl) (fun h => h rfl)
  | true => exact iff_of_true (by decide) (by decide)

theorem validDiv0_entry (x y : U64) :
    (if x = 0 then boolEntry (y == -1) else 1) =
      boolEntry (AssertOp.holds .VirtualAssertValidDiv0 x y 0) := by
  by_cases h : x = 0
  · rw [if_pos h, AssertOp.holds, h]
    rfl
  · rw [if_neg h, AssertOp.holds, bne_iff_ne.mpr h, Bool.true_or]
    rfl

theorem mulUNoOverflow_entry (x y : U64) :
    ((x.setWidth 128 * y.setWidth 128) >>> 64 == 0) = decide (x.toNat * y.toNat < 2 ^ 64) := by
  have hprod : x.toNat * y.toNat < 2 ^ 128 := by
    have hx := x.isLt
    have hy := y.isLt
    nlinarith
  have hindex : (x.setWidth 128 * y.setWidth 128).toNat = x.toNat * y.toNat := by
    rw [BitVec.toNat_mul, BitVec.toNat_setWidth_of_le (by decide),
      BitVec.toNat_setWidth_of_le (by decide), Nat.mod_eq_of_lt hprod]
  rw [Bool.eq_iff_iff, beq_iff_eq, decide_eq_true_iff, ← BitVec.toNat_inj, BitVec.toNat_ushiftRight,
    hindex, Nat.shiftRight_eq_div_pow]
  exact Nat.div_eq_zero_iff_lt (by decide)

/-- The check of `k` low bits, on an index and by a mask. -/
theorem aligned_entry {index : U128} {x : U64} (h : index.setWidth 64 = x) (k : Fin 64) :
    (index.toNat % 2 ^ k.val == 0) = (x &&& BitVec.ofNat 64 (2 ^ k.val - 1) == 0) := by
  have hmod := toNat_mod_of_low x h (pow_dvd_pow 2 k.isLt.le)
  have hmask : (BitVec.ofNat 64 (2 ^ k.val - 1)).toNat = 2 ^ k.val - 1 := by
    have hlt : 2 ^ k.val < 2 ^ 64 := Nat.pow_lt_pow_right (by decide) k.isLt
    rw [BitVec.toNat_ofNat]
    exact Nat.mod_eq_of_lt (by omega)
  rw [Bool.eq_iff_iff, beq_iff_eq, beq_iff_eq, ← BitVec.toNat_inj, BitVec.toNat_and, hmask,
    Nat.and_two_pow_sub_one_eq_mod, hmod]
  rfl

theorem trailingZeros_mask {s : Nat} (hs : s ≤ 64) : trailingZeros (shiftRightBitmask s) = s := by
  rcases hs.lt_or_eq with h | rfl
  · exact trailingZeros_shiftRightBitmask h
  · decide

/-! ## Queries by format -/

/-- The operands of the shifts and rotations right are masks: bits set from
the shift amount up, of the word in the case of `VirtualROTRIW`. -/
def BasicOp.Masked (op : BasicOp) (x : Registers) : Prop :=
  match op with
  | .shiftI .VirtualROTRI o => ∃ s ≤ 64, o.imm = shiftRightBitmask s
  | .shiftI .VirtualROTRIW o => ∃ s ≤ 32, (lowWord o.imm).toNat = maskBits 32 s
  | .shiftI _ o => ∃ s < 64, o.imm = shiftRightBitmask s
  | .shiftR _ o => ∃ s < 64, x.read o.rs2 = shiftRightBitmask s
  | _ => True

/-- The query looks `value` up in `table`. -/
def Cycle.LooksUp (c : Cycle) (table : LookupTables) (value : U64) : Prop :=
  ∃ index, c.toLookupIndex = .some index ∧ c.toLookupOutput = .some value ∧
    table.materializeEntry index = value

section Formats

variable {c : Cycle} {table : LookupTables}

theorem looksUp_r {op : ROp} {o : FormatR} (hop : c.instruction.op = .r op o)
    (h : (BasicOp.r op o).lookupTable = .some table) :
    c.LooksUp table (op.eval c.rs1Value c.rs2Value) := by
  unfold Cycle.LooksUp Cycle.toLookupOutput Cycle.toLookupIndex Cycle.toLookupOperands
    Cycle.toInstructionInputs
  rw [hop]
  cases op with
  | ADD | SUB | MUL | MULHU =>
    cases h
    refine ⟨_, rfl, ?_, ?_⟩
    · simp only [Option.bind_eq_bind, Option.bind_some, ofInt_toNat]
      rfl
    · simp only [LookupTables.materializeEntry, ofInt_toNat, low_add, low_sub, low_mul]
      rfl
  | VirtualChangeDivisorW =>
    cases h
    have hlow : (zeroExtendWord c.rs1Value).setWidth 32 = c.rs1Value.setWidth 32 := by
      rw [zeroExtendWord, BitVec.setWidth_setWidth_of_le _ (by decide), BitVec.setWidth_eq, lowWord]
    refine ⟨_, rfl, ?_, ?_⟩
    · simp only [Option.bind_eq_bind, Option.bind_some, ofInt_toNat, hlow]
      rfl
    · simp only [LookupTables.materializeEntry, ofInt_toNat, low_setWidth, uninterleave_interleave,
        hlow]
      rfl
  | _ =>
    cases h
    refine ⟨_, rfl, ?_, ?_⟩
    · simp only [Option.bind_eq_bind, Option.bind_some, ofInt_toNat, boolEntry_decide]
      rfl
    · simp only [LookupTables.materializeEntry, ofInt_toNat, low_setWidth, uninterleave_interleave,
        boolEntry_decide]
      rfl

theorem looksUp_i {op : IOp} {o : FormatI} (hop : c.instruction.op = .i op o)
    (h : (BasicOp.i op o).lookupTable = .some table) :
    c.LooksUp table (op.eval c.rs1Value o.imm) := by
  -- The operations without a second operand have their first as the index.
  have hzero : c.rs1Value + BitVec.ofInt 64 0 = c.rs1Value := BitVec.add_zero _
  have hadded : (c.rs1Value.setWidth 128 + (BitVec.ofInt 64 0).setWidth 128).setWidth 64 =
      c.rs1Value := (low_add _ _).trans hzero
  have hsigned : (BitVec.ofInt 128 (c.rs1Value.toNat + 0)).setWidth 64 = c.rs1Value :=
    (low_signedAdd _ _).trans hzero
  unfold Cycle.LooksUp Cycle.toLookupOutput Cycle.toLookupIndex Cycle.toLookupOperands
    Cycle.toInstructionInputs
  rw [hop]
  cases op with
  | ADDI | VirtualMULI =>
    cases h
    refine ⟨_, rfl, ?_, ?_⟩
    · simp only [Option.bind_eq_bind, Option.bind_some, ofInt_toNat]
      rfl
    · simp only [LookupTables.materializeEntry, ofInt_toNat, low_add, low_mul]
      rfl
  | VirtualMovsign =>
    cases h
    refine ⟨_, rfl, rfl, ?_⟩
    simp only [LookupTables.materializeEntry, interleave_top]
    rfl
  | VirtualPow2 =>
    cases h
    have hshift := toNat_mod_of_low _ hadded (show 64 ∣ 2 ^ 64 by decide)
    exact ⟨_, rfl, congrArg (fun s => some ((1 : U64) <<< s)) hshift,
      congrArg (fun s => (1 : U64) <<< s) hshift⟩
  | VirtualPow2W =>
    cases h
    have hshift := toNat_mod_of_low _ hadded (show 32 ∣ 2 ^ 64 by decide)
    exact ⟨_, rfl, congrArg (fun s => some ((1 : U64) <<< s)) hshift,
      congrArg (fun s => (1 : U64) <<< s) hshift⟩
  | VirtualShiftRightBitmask =>
    cases h
    have hshift := toNat_mod_of_low _ hadded (show 64 ∣ 2 ^ 64 by decide)
    have hvalue : IOp.eval .VirtualShiftRightBitmask c.rs1Value o.imm =
        shiftRightBitmask (c.rs1Value.toNat % 64) := by
      rw [← and_0x3f_eq]
      rfl
    rw [hvalue]
    refine ⟨_, rfl, congrArg (fun s => some (shiftRightBitmask s)) hshift, ?_⟩
    simp only [LookupTables.materializeEntry]
    rw [hshift, shiftRightBitmask_entry (Nat.mod_lt _ (by decide))]
  | VirtualSignExtendWord =>
    cases h
    rw [eval_signExtendWord, ← signExtendHalf_low]
    exact ⟨_, rfl, congrArg (fun v => some (signExtendHalf (v &&& ((1 : U64) <<< 32 - 1)))) hadded,
      congrArg signExtendHalf (lowerHalf_entry hadded)⟩
  | VirtualZeroExtendWord =>
    cases h
    exact ⟨_, rfl, congrArg (fun v => some (v &&& ((1 : U64) <<< 32 - 1))) hsigned,
      lowerHalf_entry hsigned⟩
  | VirtualRev8W =>
    cases h
    refine ⟨_, rfl, rfl, ?_⟩
    simp only [LookupTables.materializeEntry, low_setWidth]
    rfl
  | _ =>
    cases h
    refine ⟨_, rfl, ?_, ?_⟩
    · simp only [Option.bind_eq_bind, Option.bind_some, ofInt_toNat, boolEntry_decide]
      rfl
    · simp only [LookupTables.materializeEntry, ofInt_toNat, low_setWidth, uninterleave_interleave,
        boolEntry_decide]
      rfl

theorem looksUp_u {op : UOp} {o : FormatU} (hop : c.instruction.op = .u op o)
    (h : (BasicOp.u op o).lookupTable = .some table) :
    c.LooksUp table (op.eval c.instruction.address o.imm) := by
  unfold Cycle.LooksUp Cycle.toLookupOutput Cycle.toLookupIndex Cycle.toLookupOperands
    Cycle.toInstructionInputs
  rw [hop]
  cases op with
  | LUI =>
    cases h
    refine ⟨_, rfl, rfl, ?_⟩
    simp only [LookupTables.materializeEntry, ofInt_toNat, low_setWidth]
    rfl
  | AUIPC =>
    cases h
    refine ⟨_, rfl, ?_, ?_⟩
    · simp only [Option.bind_eq_bind, Option.bind_some, ofInt_toNat]
      rfl
    · simp only [LookupTables.materializeEntry, low_signedAdd, ofInt_toNat]
      rfl

theorem looksUp_j {op : JOp} {o : FormatJ} (hop : c.instruction.op = .j op o)
    (h : (BasicOp.j op o).lookupTable = .some table) : c.LooksUp table (op.eval o.imm) := by
  have hadded : ((0 : U64).setWidth 128 + (BitVec.ofInt 64 o.imm.toNat).setWidth 128).setWidth 64 =
      o.imm := by
    rw [low_add, ofInt_toNat]
    exact BitVec.zero_add _
  unfold Cycle.LooksUp Cycle.toLookupOutput Cycle.toLookupIndex Cycle.toLookupOperands
    Cycle.toInstructionInputs
  rw [hop]
  cases op with
  | VirtualPow2I =>
    cases h
    have hshift := toNat_mod_of_low _ hadded (show 64 ∣ 2 ^ 64 by decide)
    exact ⟨_, rfl, congrArg (fun s => some ((1 : U64) <<< s)) hshift,
      congrArg (fun s => (1 : U64) <<< s) hshift⟩
  | VirtualPow2IW =>
    cases h
    have hshift := toNat_mod_of_low _ hadded (show 32 ∣ 2 ^ 64 by decide)
    exact ⟨_, rfl, congrArg (fun s => some ((1 : U64) <<< s)) hshift,
      congrArg (fun s => (1 : U64) <<< s) hshift⟩
  | VirtualShiftRightBitmaskI =>
    cases h
    have hshift := toNat_mod_of_low _ hadded (show 64 ∣ 2 ^ 64 by decide)
    refine ⟨_, rfl, congrArg (fun s => some (shiftRightBitmask s)) hshift, ?_⟩
    simp only [LookupTables.materializeEntry]
    rw [hshift, shiftRightBitmask_entry (Nat.mod_lt _ (by decide))]
    rfl

theorem looksUp_shiftI {op : ShiftIOp} {o : FormatVirtualRightShiftI} {x : Registers}
    (hop : c.instruction.op = .shiftI op o) (hmask : (BasicOp.shiftI op o).Masked x)
    (h : (BasicOp.shiftI op o).lookupTable = .some table) :
    c.LooksUp table (op.eval c.rs1Value o.imm) := by
  unfold Cycle.LooksUp Cycle.toLookupOutput Cycle.toLookupIndex Cycle.toLookupOperands
    Cycle.toInstructionInputs
  rw [hop]
  cases op with
  | VirtualSRLI =>
    cases h
    obtain ⟨s, hs, himm⟩ := hmask
    have hentry : srlEntry c.rs1Value o.imm = ShiftIOp.eval .VirtualSRLI c.rs1Value o.imm := by
      rw [himm, srlEntry_mask _ hs.le, eval_srli _ hs]
    rw [← hentry]
    refine ⟨_, rfl, ?_, ?_⟩
    · simp only [Option.bind_eq_bind, Option.bind_some, ofInt_toNat]
      rfl
    · simp only [LookupTables.materializeEntry, ofInt_toNat, low_setWidth, uninterleave_interleave]
  | VirtualSRAI =>
    cases h
    obtain ⟨s, hs, himm⟩ := hmask
    have hentry : sraEntry c.rs1Value o.imm = ShiftIOp.eval .VirtualSRAI c.rs1Value o.imm := by
      rw [himm, sraEntry_mask _ hs, eval_srai _ hs]
    rw [← hentry]
    refine ⟨_, rfl, ?_, ?_⟩
    · simp only [Option.bind_eq_bind, Option.bind_some, ofInt_toNat]
      rfl
    · simp only [LookupTables.materializeEntry, ofInt_toNat, low_setWidth, uninterleave_interleave]
  | VirtualROTRI =>
    cases h
    obtain ⟨s, hs, himm⟩ := hmask
    refine ⟨_, rfl, ?_, ?_⟩
    · simp only [Option.bind_eq_bind, Option.bind_some, ofInt_toNat]
      rfl
    · simp only [LookupTables.materializeEntry, ofInt_toNat, low_setWidth, uninterleave_interleave]
      rw [himm, rotateEntry_mask _ hs, ShiftIOp.eval, trailingZeros_mask hs]
  | VirtualROTRIW =>
    cases h
    obtain ⟨s, hs, himm⟩ := hmask
    refine ⟨_, rfl, ?_, ?_⟩
    · simp only [Option.bind_eq_bind, Option.bind_some, ofInt_toNat]
      rfl
    · simp only [LookupTables.materializeEntry, ofInt_toNat, low_setWidth, uninterleave_interleave]
      rw [rotateWordEntry_mask _ hs himm, ShiftIOp.eval, min_trailingZeros_word hs himm, lowWord]

theorem looksUp_shiftR {op : ShiftROp} {o : FormatVirtualRightShiftR}
    (hop : c.instruction.op = .shiftR op o) (hmask : ∃ s < 64, c.rs2Value = shiftRightBitmask s)
    (h : (BasicOp.shiftR op o).lookupTable = .some table) :
    c.LooksUp table (op.eval c.rs1Value c.rs2Value) := by
  unfold Cycle.LooksUp Cycle.toLookupOutput Cycle.toLookupIndex Cycle.toLookupOperands
    Cycle.toInstructionInputs
  rw [hop]
  obtain ⟨s, hs, hrs2⟩ := hmask
  cases op with
  | VirtualSRL =>
    cases h
    have hentry : srlEntry c.rs1Value c.rs2Value =
        ShiftROp.eval .VirtualSRL c.rs1Value c.rs2Value := by
      rw [hrs2, srlEntry_mask _ hs.le]
      exact (eval_srli _ hs).symm
    rw [← hentry]
    refine ⟨_, rfl, ?_, ?_⟩
    · simp only [Option.bind_eq_bind, Option.bind_some, ofInt_toNat]
      rfl
    · simp only [LookupTables.materializeEntry, ofInt_toNat, low_setWidth, uninterleave_interleave]
  | VirtualSRA =>
    cases h
    have hentry : sraEntry c.rs1Value c.rs2Value =
        ShiftROp.eval .VirtualSRA c.rs1Value c.rs2Value := by
      rw [hrs2, sraEntry_mask _ hs]
      exact (eval_srai _ hs).symm
    rw [← hentry]
    refine ⟨_, rfl, ?_, ?_⟩
    · simp only [Option.bind_eq_bind, Option.bind_some, ofInt_toNat]
      rfl
    · simp only [LookupTables.materializeEntry, ofInt_toNat, low_setWidth, uninterleave_interleave]

theorem looksUp_branch {op : BranchOp} {o : FormatB} (hop : c.instruction.op = .branch op o)
    (h : (BasicOp.branch op o).lookupTable = .some table) :
    c.LooksUp table (boolEntry (op.holds c.rs1Value c.rs2Value)) := by
  unfold Cycle.LooksUp Cycle.toLookupOutput Cycle.toLookupIndex Cycle.toLookupOperands
    Cycle.toInstructionInputs
  rw [hop]
  cases op with
  | _ =>
    cases h
    refine ⟨_, rfl, ?_, ?_⟩
    · simp only [Option.bind_eq_bind, Option.bind_some, ofInt_toNat]
      rfl
    · simp only [LookupTables.materializeEntry, ofInt_toNat, low_setWidth, uninterleave_interleave]
      rfl

theorem looksUp_assert {op : AssertOp} {o : FormatB} (hop : c.instruction.op = .assert op o)
    (h : (BasicOp.assert op o).lookupTable = .some table) :
    c.LooksUp table (boolEntry (op.holds c.rs1Value c.rs2Value 0)) := by
  unfold Cycle.LooksUp Cycle.toLookupOutput Cycle.toLookupIndex Cycle.toLookupOperands
    Cycle.toInstructionInputs
  rw [hop]
  cases op with
  | VirtualAssertValidDiv0 =>
    cases h
    rw [← validDiv0_entry]
    refine ⟨_, rfl, ?_, ?_⟩
    · simp only [Option.bind_eq_bind, Option.bind_some, ofInt_toNat]
      rfl
    · simp only [LookupTables.materializeEntry, ofInt_toNat, low_setWidth, uninterleave_interleave]
  | VirtualAssertMulUNoOverflow =>
    cases h
    refine ⟨_, rfl, ?_, ?_⟩
    · simp only [Option.bind_eq_bind, Option.bind_some, ofInt_toNat]
      rfl
    · simp only [LookupTables.materializeEntry, ofInt_toNat]
      exact congrArg boolEntry (mulUNoOverflow_entry _ _)
  | _ =>
    cases h
    refine ⟨_, rfl, ?_, ?_⟩
    · simp only [Option.bind_eq_bind, Option.bind_some, ofInt_toNat]
      rfl
    · simp only [LookupTables.materializeEntry, ofInt_toNat, low_setWidth, uninterleave_interleave]
      rfl

theorem looksUp_align {op : AlignOp} {o : FormatAssert} (hop : c.instruction.op = .align op o)
    (h : (BasicOp.align op o).lookupTable = .some table) :
    c.LooksUp table (boolEntry (op.holds (c.rs1Value + o.imm))) := by
  have hindex : (BitVec.ofInt 128 (c.rs1Value.toNat + o.imm.toInt)).setWidth 64 =
      c.rs1Value + o.imm := by
    rw [low_signedAdd, BitVec.ofInt_toInt]
  unfold Cycle.LooksUp Cycle.toLookupOutput Cycle.toLookupIndex Cycle.toLookupOperands
    Cycle.toInstructionInputs
  rw [hop]
  cases op with
  | VirtualAssertHalfwordAlignment =>
    cases h
    have hholds := congrArg boolEntry (aligned_entry hindex 1)
    exact ⟨_, rfl, congrArg some hholds, hholds⟩
  | VirtualAssertWordAlignment =>
    cases h
    have hholds := congrArg boolEntry (aligned_entry hindex 2)
    exact ⟨_, rfl, congrArg some hholds, hholds⟩

theorem looksUp_jal {o : FormatJ} (hop : c.instruction.op = .JAL o) :
    c.LooksUp .RangeCheck (c.instruction.address + o.imm) := by
  unfold Cycle.LooksUp Cycle.toLookupOutput Cycle.toLookupIndex Cycle.toLookupOperands
    Cycle.toInstructionInputs
  rw [hop]
  refine ⟨_, rfl, ?_, ?_⟩
  · simp only [Option.bind_eq_bind, Option.bind_some, ofInt_toNat]
    rfl
  · simp only [LookupTables.materializeEntry, low_signedAdd, ofInt_toNat]

theorem looksUp_jalr {o : FormatI} (hop : c.instruction.op = .JALR o) :
    c.LooksUp .RangeCheckAligned ((c.rs1Value + o.imm) &&& ~~~1) := by
  unfold Cycle.LooksUp Cycle.toLookupOutput Cycle.toLookupIndex Cycle.toLookupOperands
    Cycle.toInstructionInputs
  rw [hop]
  refine ⟨_, rfl, ?_, ?_⟩
  · simp only [Option.bind_eq_bind, Option.bind_some, ofInt_toNat]
    rfl
  · simp only [LookupTables.materializeEntry, low_signedAdd, ofInt_toNat]

/-- The advice is what the cycle leaves in `rd`. -/
theorem looksUp_advice {advice : U64}
    (hop : (∃ o, c.instruction.op = .VirtualAdvice o advice) ∨
      advice = c.rdValue ∧ ((∃ o, c.instruction.op = .VirtualAdviceLoad o) ∨
        ∃ o, c.instruction.op = .VirtualAdviceLen o)) :
    c.LooksUp .RangeCheck advice := by
  unfold Cycle.LooksUp Cycle.toLookupOutput Cycle.toLookupIndex Cycle.toLookupOperands
    Cycle.toInstructionInputs
  rcases hop with ⟨o, hop⟩ | ⟨rfl, ⟨o, hop⟩ | ⟨o, hop⟩⟩ <;> rw [hop] <;>
    exact ⟨_, rfl, rfl, low_setWidth _⟩

end Formats

/-! ## Agreement -/

/-- The index is the interleaved operands or, for the instructions that
combine theirs, the right operand alone. -/
def Cycle.IndexAgrees (c : Cycle) : Prop :=
  ∃ left right index, c.toLookupOperands = .some (left, right) ∧ c.toLookupIndex = .some index ∧
    if c.instruction.isInterleavedOperands then index = interleaveBits left (right.setWidth 64)
    else left = 0 ∧ index = right

theorem isInterleavedOperands_eq (i : BasicInstruction) :
    i.isInterleavedOperands = !Cycle.indexIsOperand i.op := by
  obtain ⟨op, address, remaining, first, compressed⟩ := i
  cases op with
  | r op o => cases op <;> rfl
  | i op o => cases op <;> rfl
  | assert op o => cases op <;> rfl
  | _ => rfl

/-- The operands an instruction combines are all in the right one. -/
theorem operands_of_inputs {c : Cycle} (h : c.toInstructionInputs ≠ .none) :
    ∃ left right, c.toLookupOperands = .some (left, right) ∧
      (Cycle.indexIsOperand c.instruction.op → left = 0) ∧
      (c.instruction.op = .noOp → left = 0 ∧ right = 0) := by
  unfold Cycle.toInstructionInputs at h
  unfold Cycle.toLookupOperands Cycle.toInstructionInputs
  cases hop : c.instruction.op with
  | VirtualLW | VirtualSW =>
    rw [hop] at h
    exact absurd rfl h
  | noOp => exact ⟨_, _, rfl, by simp [Cycle.indexIsOperand], fun _ => ⟨rfl, rfl⟩⟩
  | r op o => cases op <;> exact ⟨_, _, rfl, by simp [Cycle.indexIsOperand], by simp⟩
  | i op o => cases op <;> exact ⟨_, _, rfl, by simp [Cycle.indexIsOperand], by simp⟩
  | u op o => cases op <;> exact ⟨_, _, rfl, fun _ => rfl, by simp⟩
  | assert op o => cases op <;> exact ⟨_, _, rfl, by simp [Cycle.indexIsOperand], by simp⟩
  | shiftI | shiftR | branch => exact ⟨_, _, rfl, by simp [Cycle.indexIsOperand], by simp⟩
  | _ => exact ⟨_, _, rfl, fun _ => rfl, by simp⟩

theorem indexAgrees {c : Cycle} (h : c.toInstructionInputs ≠ .none) : c.IndexAgrees := by
  obtain ⟨left, right, hoperands, hleft, hzero⟩ := operands_of_inputs h
  unfold Cycle.IndexAgrees
  rw [isInterleavedOperands_eq, Cycle.toLookupIndex, hoperands]
  by_cases hnoOp : c.instruction.op = .noOp
  · obtain ⟨rfl, rfl⟩ := hzero hnoOp
    exact ⟨_, _, 0, rfl, by simp [hnoOp], by simp [hnoOp, Cycle.indexIsOperand]; decide⟩
  by_cases hindex : Cycle.indexIsOperand c.instruction.op
  · exact ⟨_, _, right, rfl, by simp [hnoOp, hindex], by simp [hindex, hleft hindex]⟩
  · exact ⟨_, _, _, rfl, by simp [hnoOp, hindex]; rfl, by simp [hindex]⟩

/-- A cycle that traced is not one of the two without a lookup query. -/
theorem inputs_of_exec {c : Cycle} {address : U64} {cpu : Cpu}
    (h : c.instruction.op.exec address cpu ≠ .none) : c.toInstructionInputs ≠ .none := by
  unfold Cycle.toInstructionInputs
  cases hop : c.instruction.op with
  | VirtualLW | VirtualSW =>
    rw [hop] at h
    exact absurd rfl h
  | r op o => cases op <;> exact Option.some_ne_none _
  | i op o => cases op <;> exact Option.some_ne_none _
  | u op o => cases op <;> exact Option.some_ne_none _
  | _ => exact Option.some_ne_none _

theorem output_of_no_table {c : Cycle} (h : c.toInstructionInputs ≠ .none)
    (htable : c.instruction.op.lookupTable = .none) : c.toLookupOutput = .some 0 := by
  unfold Cycle.toInstructionInputs at h
  unfold Cycle.toLookupOutput Cycle.toLookupIndex Cycle.toLookupOperands Cycle.toInstructionInputs
  cases hop : c.instruction.op with
  | VirtualLW | VirtualSW =>
    rw [hop] at h
    exact absurd rfl h
  | noOp | LD | SD | VirtualHostIo | FENCE | EBREAK => rfl
  | r op o => cases op <;> rw [hop] at htable <;> cases htable
  | i op o => cases op <;> rw [hop] at htable <;> cases htable
  | j op o => cases op <;> rw [hop] at htable <;> cases htable
  | shiftI op o => cases op <;> rw [hop] at htable <;> cases htable
  | shiftR op o => cases op <;> rw [hop] at htable <;> cases htable
  | branch op o => cases op <;> rw [hop] at htable <;> cases htable
  | assert op o => cases op <;> rw [hop] at htable <;> cases htable
  | align op o => cases op <;> rw [hop] at htable <;> cases htable
  | _ =>
    rw [hop] at htable
    cases htable

/-- What `exec` did, as the output of a lookup: the branch taken or not, the
target of a jump, 1 for an assertion that passed, else the value in `rd`.
`VirtualAssertEQ` with an immediate executes without its assertion, too. -/
def BasicInstruction.Outcome (i : BasicInstruction) (cpu cpu' : Cpu) (output : U64) : Prop :=
  match i.op with
  | .branch _ o =>
    output = 1 ∧ cpu' = { cpu with pc := i.address + BitVec.ofInt 64 o.imm } ∨
      output = 0 ∧ cpu' = cpu
  | .JAL _ | .JALR _ => output = cpu'.pc
  | .assert .VirtualAssertEQ o =>
    o.imm = 0 ∨ cpu.x.read o.rs1 = cpu.x.read o.rs2 → output = 1
  | .assert .. | .align .. => output = 1
  | op => ∀ rd, op.rd = .some rd → output = cpu'.x.read rd

theorem boolEntry_true {b : Bool} (h : b = true) : boolEntry b = 1 := by
  rw [h]
  rfl

theorem writeRd_read {rd : Nat} {value : U64} {cpu cpu' : Cpu} {access : RamAccess}
    (h : writeRd rd value cpu = .some (access, cpu')) (hrd : some rd ≠ .some 0) :
    ∀ r, some rd = .some r → value = cpu'.x.read r := by
  cases h
  intro r hr
  cases hr
  rw [Cpu.writeRegister_x, Registers.read_write_self]
  exact fun h => hrd (congrArg some h)

section Agreement

variable {i : BasicInstruction} {cpu cpu' : Cpu} {c : Cycle} {table : LookupTables}

/-- The one case per format of `lookup_agrees`, with the fields of the cycle. -/
theorem looksUp_outcome (hrd : i.op.rd ≠ .some 0) (hmask : i.op.Masked cpu.x)
    (htable : i.op.lookupTable = .some table) {access : RamAccess}
    (hexec : i.op.exec i.address cpu = .some (access, cpu')) (hc : c.instruction = i)
    (hrs1 : c.rs1 = i.op.normalize.rs1.map cpu.x.read)
    (hrs2 : c.rs2 = i.op.normalize.rs2.map cpu.x.read)
    (hvalue : c.rd = i.op.normalize.rd.map fun r => (cpu.x.read r, cpu'.x.read r)) :
    ∃ output, c.LooksUp table output ∧ i.Outcome cpu cpu' output := by
  have hop : c.instruction.op = i.op := by rw [hc]
  unfold BasicInstruction.Outcome
  cases hi : i.op with
  | noOp | LD | SD | VirtualLW | VirtualSW | VirtualHostIo | FENCE | EBREAK =>
    rw [hi] at htable
    cases htable
  | r op o =>
    rw [hi] at hop htable hexec hrd hrs1 hrs2
    refine ⟨_, looksUp_r hop htable, ?_⟩
    rw [Cycle.rs1Value, Cycle.rs2Value, hrs1, hrs2]
    exact writeRd_read hexec hrd
  | i op o =>
    rw [hi] at hop htable hexec hrd hrs1
    refine ⟨_, looksUp_i hop htable, ?_⟩
    rw [Cycle.rs1Value, hrs1]
    exact writeRd_read hexec hrd
  | u op o =>
    rw [hi] at hop htable hexec hrd
    refine ⟨_, looksUp_u hop htable, ?_⟩
    rw [hc]
    exact writeRd_read hexec hrd
  | j op o =>
    rw [hi] at hop htable hexec hrd
    exact ⟨_, looksUp_j hop htable, writeRd_read hexec hrd⟩
  | shiftI op o =>
    rw [hi] at hop htable hexec hrd hrs1 hmask
    refine ⟨_, looksUp_shiftI hop hmask htable, ?_⟩
    rw [Cycle.rs1Value, hrs1]
    exact writeRd_read hexec hrd
  | shiftR op o =>
    rw [hi] at hop htable hexec hrd hrs1 hrs2 hmask
    have hrs2' : c.rs2Value = cpu.x.read o.rs2 := by rw [Cycle.rs2Value, hrs2]; rfl
    refine ⟨_, looksUp_shiftR hop (by rw [hrs2']; exact hmask) htable, ?_⟩
    rw [Cycle.rs1Value, hrs2', hrs1]
    exact writeRd_read hexec hrd
  | branch op o =>
    rw [hi] at hop htable hexec hrs1 hrs2
    refine ⟨_, looksUp_branch hop htable, ?_⟩
    rw [Cycle.rs1Value, Cycle.rs2Value, hrs1, hrs2]
    simp only [BasicOp.exec] at hexec
    split at hexec
    · next hholds =>
      cases hexec
      exact .inl ⟨boolEntry_true hholds, rfl⟩
    · next hholds =>
      cases hexec
      exact .inr ⟨congrArg boolEntry (Bool.eq_false_iff.mpr hholds), rfl⟩
  | assert op o =>
    rw [hi] at hop htable hexec hrs1 hrs2
    refine ⟨_, looksUp_assert hop htable, ?_⟩
    rw [Cycle.rs1Value, Cycle.rs2Value, hrs1, hrs2]
    simp only [BasicOp.exec] at hexec
    split at hexec
    · next hholds =>
      cases op with
      | VirtualAssertEQ =>
        intro hpass
        refine boolEntry_true (holds_assertEQ.mpr ?_)
        rcases hpass with himm | heq
        · rw [himm] at hholds
          exact holds_assertEQ.mp hholds
        · exact heq
      | _ => exact boolEntry_true hholds
    · cases hexec
  | align op o =>
    rw [hi] at hop htable hexec hrs1
    refine ⟨_, looksUp_align hop htable, ?_⟩
    rw [Cycle.rs1Value, hrs1]
    simp only [BasicOp.exec] at hexec
    split at hexec
    · next hholds => exact boolEntry_true hholds
    · cases hexec
  | JAL o =>
    rw [hi] at hop htable hexec
    cases htable
    cases hexec
    exact ⟨_, looksUp_jal hop, by rw [hc]⟩
  | JALR o =>
    rw [hi] at hop htable hexec hrs1
    cases htable
    cases hexec
    exact ⟨_, looksUp_jalr hop, by rw [Cycle.rs1Value, hrs1]; rfl⟩
  | VirtualAdvice o advice =>
    rw [hi] at hop htable hexec hrd
    cases htable
    exact ⟨_, looksUp_advice (.inl ⟨o, hop⟩), writeRd_read hexec hrd⟩
  | VirtualAdviceLoad o =>
    rw [hi] at hop htable hvalue
    cases htable
    refine ⟨_, looksUp_advice (.inr ⟨rfl, .inl ⟨o, hop⟩⟩), fun rd h => ?_⟩
    cases h
    rw [Cycle.rdValue, hvalue]
    rfl
  | VirtualAdviceLen o =>
    rw [hi] at hop htable hvalue
    cases htable
    refine ⟨_, looksUp_advice (.inr ⟨rfl, .inr ⟨o, hop⟩⟩), fun rd h => ?_⟩
    cases h
    rw [Cycle.rdValue, hvalue]
    rfl

/-- **Lookups agree with execution.** The index of a query is the one its
operands make. For an instruction with a lookup table, on masks where it shifts
by a mask, the output is the table's entry at the index and what `exec` did;
an instruction without a table has the output 0. -/
theorem lookup_agrees (hrd : i.op.rd ≠ .some 0) (hmask : i.op.Masked cpu.x)
    (h : i.traceRaw cpu = .some ([c], cpu')) :
    c.IndexAgrees ∧
      (∀ table, i.op.lookupTable = .some table → ∃ index output, c.toLookupIndex = .some index ∧
        c.toLookupOutput = .some output ∧ output = table.materializeEntry index ∧
        i.Outcome cpu cpu' output) ∧
      (i.op.lookupTable = .none → c.toLookupOutput = .some 0) := by
  obtain ⟨access, hexec, hcycle⟩ := BasicInstruction.traceRaw_exec h
  have hc := List.singleton_inj.mp hcycle
  have hinstr : c.instruction = i := by rw [hc]
  have hinputs : c.toInstructionInputs ≠ .none := by
    refine @inputs_of_exec c i.address cpu ?_
    rw [hinstr, hexec]
    exact Option.some_ne_none _
  refine ⟨indexAgrees hinputs, fun table htable => ?_, fun htable => ?_⟩
  · obtain ⟨output, ⟨index, hindex, hout, hentry⟩, houtcome⟩ :=
      looksUp_outcome hrd hmask htable hexec hinstr (by rw [hc]) (by rw [hc]) (by rw [hc])
    exact ⟨index, output, hindex, hout, hentry.symm, houtcome⟩
  · exact output_of_no_table hinputs (hinstr ▸ htable)

/-- A logical shift of -8 by the mask of 2. -/
theorem lookup_agrees_srli :
    let cpu := Cpu.new.writeRegister 5 (-8)
    let i : BasicInstruction := ⟨.shiftI .VirtualSRLI ⟨7, 5, shiftRightBitmask 2⟩, 0, .none, false, false⟩
    ∃ c cpu', i.traceRaw cpu = .some ([c], cpu') ∧ c.IndexAgrees ∧
      ∃ index output, c.toLookupIndex = .some index ∧ c.toLookupOutput = .some output ∧
        output = LookupTables.VirtualSRL.materializeEntry index ∧ i.Outcome cpu cpu' output := by
  intro cpu i
  obtain ⟨hindex, hentry, -⟩ := lookup_agrees (i := i) (by decide) ⟨2, by decide, rfl⟩ rfl
  exact ⟨_, _, rfl, hindex, hentry _ rfl⟩

set_option maxRecDepth 20000 in
/-- `VirtualSRLI` by an immediate that is no mask: of the operand 1 and the
immediate 0 `exec` makes 1, and the output of the lookup is 0. -/
theorem lookup_srli_zero :
    let cpu := Cpu.new.writeRegister 5 1
    let i : BasicInstruction := ⟨.shiftI .VirtualSRLI ⟨7, 5, 0⟩, 0, .none, false, false⟩
    i.op.rd ≠ .some 0 ∧ ∃ c cpu', i.traceRaw cpu = .some ([c], cpu') ∧
      c.toLookupOutput = .some 0 ∧ cpu'.x.read 7 = 1 ∧ ∀ output, c.toLookupOutput = .some output → ¬ i.Outcome cpu cpu' output := by
  intro cpu i
  refine ⟨by decide, _, _, rfl, by decide, by decide, fun output hout houtcome => ?_⟩
  have hzero : output = 0 := by
    have hvalue : output = _ := (Option.some.inj hout).symm
    rw [hvalue]
    decide
  have hone := houtcome 7 rfl
  rw [hzero] at hone
  exact absurd hone (by decide)

end Agreement

end LightningJolt
