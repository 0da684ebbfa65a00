/-
A row of the R1CS: the values a cycle and the next one give the inputs of the
constraints.
-/
import LightningJolt.LookupQuery
import LightningJolt.Transcript

namespace LightningJolt

/-! ## Signed magnitudes -/

/-- `SignedBigInt`: a magnitude of so many bits and a sign. -/
structure SignedMagnitude (w : Nat) where
  magnitude : BitVec w
  isPositive : Bool
deriving DecidableEq

namespace SignedMagnitude

variable {w : Nat}

def toInt (s : SignedMagnitude w) : Int :=
  if s.isPositive then s.magnitude.toNat else -s.magnitude.toNat

/-- The value, its magnitude cut to the width. -/
def ofInt (w : Nat) (v : Int) : SignedMagnitude w := ⟨BitVec.ofNat w v.natAbs, 0 ≤ v⟩

/-- The difference, its magnitude cut to the width. -/
def sub (a b : SignedMagnitude w) : SignedMagnitude w := ofInt w (a.toInt - b.toInt)

theorem natAbs_toInt (s : SignedMagnitude w) : s.toInt.natAbs = s.magnitude.toNat := by
  unfold toInt
  split_ifs <;> simp

theorem natAbs_toInt_lt (s : SignedMagnitude w) : s.toInt.natAbs < 2 ^ w := by
  rw [natAbs_toInt]
  exact s.magnitude.isLt

theorem toInt_ofInt {v : Int} (h : v.natAbs < 2 ^ w) : (ofInt w v).toInt = v := by
  have hmod : (BitVec.ofNat w v.natAbs).toNat = v.natAbs := by
    rw [BitVec.toNat_ofNat, Nat.mod_eq_of_lt h]
  unfold toInt ofInt
  simp only [hmod]
  by_cases hv : 0 ≤ v
  · simp [hv, Int.natAbs_of_nonneg hv]
  · simp only [hv, decide_false, Bool.false_eq_true, if_false]
    omega

theorem toInt_sub {a b : SignedMagnitude w} (h : (a.toInt - b.toInt).natAbs < 2 ^ w) :
    (a.sub b).toInt = a.toInt - b.toInt := toInt_ofInt h

end SignedMagnitude

abbrev S64 := SignedMagnitude 64
abbrev S128 := SignedMagnitude 128
abbrev S160 := SignedMagnitude 160

/-- `s64_from_diff_u64s`. -/
def s64FromDiffU64s (a b : U64) : S64 := if a < b then ⟨b - a, false⟩ else ⟨a - b, true⟩

theorem toInt_s64FromDiffU64s (a b : U64) : (s64FromDiffU64s a b).toInt = a.toNat - b.toNat := by
  unfold s64FromDiffU64s SignedMagnitude.toInt
  have ha := a.isLt
  have hb := b.isLt
  by_cases h : a < b
  · have hlt : a.toNat < b.toNat := h
    simp only [if_pos h, Bool.false_eq_true, if_false, BitVec.toNat_sub]
    omega
  · have hle : b.toNat ≤ a.toNat := Nat.le_of_not_lt h
    simp only [if_neg h, if_true, BitVec.toNat_sub]
    omega

/-- `i128` arithmetic, which wraps. -/
def i128 (v : Int) : Int := Int.bmod v (2 ^ 128)

theorem i128_eq {v : Int} (h1 : -2 ^ 127 ≤ v) (h2 : v < 2 ^ 127) : i128 v = v := by
  exact Int.bmod_eq_of_le (by omega) (by omega)

/-! ## The bytecode index of a cycle -/

/-- `BytecodePCMapper`: the index of the first instruction at an address and how
many follow it. A vector's bytes, 24 an entry, and an index are at most
`isize::MAX`. -/
structure BytecodePCMapper where
  indices : List (Option (Nat × Nat))
  capacity : indices.length * 24 < 2 ^ 63
  bounded : ∀ q, .some q ∈ indices → q.1 < 2 ^ 63

namespace BytecodePCMapper

/-- `get_index`, which asserts the address is in RAM and aligned. -/
def getIndex (address : U64) : Option Nat :=
  if 0x80000000 ≤ address.toNat ∧ address.toNat % 2 = 0 then
    .some ((address.toNat - 0x80000000) / 2 + 1)
  else .none

/-- `get_pc`, the difference of two `u16`. -/
def getPc (m : BytecodePCMapper) (address : U64) (virtualSequenceRemaining : Nat) : Option U64 := do
  let (basePc, maxInlineSeq) ← (← m.indices[← getIndex address]?)
  .some (BitVec.ofNat 64 (basePc + (maxInlineSeq + 2 ^ 16 - virtualSequenceRemaining) % 2 ^ 16))

/-- An address that has an index is far below the end of memory, and so is the
index. -/
theorem getPc_bounds {m : BytecodePCMapper} {address pc : U64} {remaining : Nat}
    (h : m.getPc address remaining = .some pc) :
    0x80000000 ≤ address.toNat ∧ address.toNat + 4 < 2 ^ 64 ∧ pc.toNat + 1 < 2 ^ 64 := by
  unfold getPc getIndex at h
  split_ifs at h with haddress
  · simp only [Option.bind_eq_bind, Option.bind_some, Option.bind_eq_some_iff] at h
    obtain ⟨entry, hentry, ⟨basePc, maxInlineSeq⟩, rfl, hpc⟩ := h
    obtain ⟨hlt, hget⟩ := List.getElem?_eq_some_iff.mp hentry
    have hcapacity := m.capacity
    have hbase := m.bounded (basePc, maxInlineSeq) (hget ▸ List.getElem_mem hlt)
    have hmod := Nat.mod_lt (maxInlineSeq + 2 ^ 16 - remaining) (Nat.two_pow_pos 16)
    cases hpc
    refine ⟨haddress.1, by omega, ?_⟩
    rw [BitVec.toNat_ofNat]
    simp only at hbase
    omega
  · simp at h

end BytecodePCMapper

structure BytecodePreprocessing where
  pcMap : BytecodePCMapper

/-- `get_pc`. -/
def BytecodePreprocessing.getPc (b : BytecodePreprocessing) (c : Cycle) : Option U64 :=
  if c.instruction.op = .noOp then .some 0
  else b.pcMap.getPc c.instruction.address (c.instruction.virtualSequenceRemaining.getD 0)

/-! ## Rows -/

/-- The inputs of the constraints. -/
inductive JoltR1CSInputs
  | LeftInstructionInput | RightInstructionInput | Product | ShouldBranch | PC | UnexpandedPC | Imm
  | RamAddress | Rs1Value | Rs2Value | RdWriteValue | RamReadValue | RamWriteValue
  | LeftLookupOperand | RightLookupOperand | NextUnexpandedPC | NextPC | NextIsVirtual
  | NextIsFirstInSequence | LookupOutput | ShouldJump
  | OpFlags (flag : CircuitFlags)
deriving DecidableEq

structure R1CSCycleInputs where
  leftInput : U64
  rightInput : S64
  product : S128
  leftLookup : U64
  rightLookup : U128
  lookupOutput : U64
  rs1ReadValue : U64
  rs2ReadValue : U64
  rdWriteValue : U64
  ramAddr : U64
  ramReadValue : U64
  ramWriteValue : U64
  pc : U64
  nextPc : U64
  unexpandedPc : U64
  nextUnexpandedPc : U64
  imm : S64
  flags : CircuitFlags → Bool
  nextIsNoop : Bool
  shouldJump : Bool
  shouldBranch : Bool
  nextIsVirtual : Bool
  nextIsFirstInSequence : Bool

def RamAccess.address : RamAccess → Nat
  | .read r => r.address
  | .write w => w.address
  | .noOp => 0

/-- The value before and the value after an access. -/
def RamAccess.values : RamAccess → U64 × U64
  | .read r => (r.value, r.value)
  | .write w => (w.preValue, w.postValue)
  | .noOp => (0, 0)

/-- The address of an instruction; a no-op has none. -/
def Cycle.unexpandedPc (c : Cycle) : U64 := if c.instruction.op = .noOp then 0 else c.instruction.address

/-- `S64::from_u64_with_sign` of the magnitude as a `u64`. -/
def s64Truncated (v : Int) : S64 := SignedMagnitude.ofInt 64 v

namespace R1CSCycleInputs

/-- `from_trace`. -/
def fromTrace (b : BytecodePreprocessing) (cycles : List Cycle) (t : Nat) :
    Option R1CSCycleInputs := do
  let cycle ← cycles[t]?
  let nextCycle := cycles[t + 1]?
  let (leftInput, right) ← cycle.toInstructionInputs
  let (leftLookup, rightLookup) ← cycle.toLookupOperands
  let lookupOutput ← cycle.toLookupOutput
  let pc ← b.getPc cycle
  let nextPc ← (nextCycle.map b.getPc).getD (.some 0)
  let nextIsNoop := (nextCycle.map fun nc =>
    decide (.IsNoop ∈ nc.instruction.op.instructionFlags)).getD false
  .some {
    leftInput, leftLookup, rightLookup, lookupOutput, pc, nextPc, nextIsNoop
    rightInput := s64Truncated right
    product := SignedMagnitude.ofInt 128 (leftInput.toNat * right)
    rs1ReadValue := cycle.rs1Value
    rs2ReadValue := cycle.rs2Value
    rdWriteValue := cycle.rdValue
    ramAddr := BitVec.ofNat 64 cycle.ramAccess.address
    ramReadValue := cycle.ramAccess.values.1
    ramWriteValue := cycle.ramAccess.values.2
    unexpandedPc := cycle.unexpandedPc
    nextUnexpandedPc := (nextCycle.map Cycle.unexpandedPc).getD 0
    imm := s64Truncated cycle.instruction.op.normalize.imm
    flags := cycle.instruction.circuitFlags
    shouldJump := cycle.instruction.circuitFlags .Jump && !nextIsNoop
    shouldBranch := decide (.Branch ∈ cycle.instruction.op.instructionFlags) && lookupOutput == 1
    nextIsVirtual := (nextCycle.map (·.instruction.circuitFlags .VirtualInstruction)).getD false
    nextIsFirstInSequence :=
      (nextCycle.map (·.instruction.circuitFlags .IsFirstInSequence)).getD false }

/-- The value of an input on the row. -/
def inputValue (row : R1CSCycleInputs) : JoltR1CSInputs → Int
  | .PC => row.pc.toNat
  | .UnexpandedPC => row.unexpandedPc.toNat
  | .Imm => row.imm.toInt
  | .RamAddress => row.ramAddr.toNat
  | .Rs1Value => row.rs1ReadValue.toNat
  | .Rs2Value => row.rs2ReadValue.toNat
  | .RdWriteValue => row.rdWriteValue.toNat
  | .RamReadValue => row.ramReadValue.toNat
  | .RamWriteValue => row.ramWriteValue.toNat
  | .LeftInstructionInput => row.leftInput.toNat
  | .RightInstructionInput => row.rightInput.toInt
  | .LeftLookupOperand => row.leftLookup.toNat
  | .RightLookupOperand => row.rightLookup.toNat
  | .Product => row.product.toInt
  | .ShouldBranch => row.shouldBranch.toNat
  | .NextUnexpandedPC => row.nextUnexpandedPc.toNat
  | .NextPC => row.nextPc.toNat
  | .NextIsVirtual => row.nextIsVirtual.toNat
  | .NextIsFirstInSequence => row.nextIsFirstInSequence.toNat
  | .LookupOutput => row.lookupOutput.toNat
  | .ShouldJump => row.shouldJump.toNat
  | .OpFlags flag => (row.flags flag).toNat

end R1CSCycleInputs

end LightningJolt
