/-
The guest's I/O device (`common/src/jolt_device.rs`): the memory layout the
emulator and the verifier share, and byte loads and stores into its regions.

Addresses and sizes are the source's `u64` values as naturals; where the
source checks an addition, so does the model (`checkedAdd`). A panic is
`none`.
-/
import Mathlib

namespace LightningJolt

abbrev U8 := BitVec 8
abbrev U16 := BitVec 16
abbrev U32 := BitVec 32
abbrev U64 := BitVec 64
abbrev U128 := BitVec 128

/-! ## Constants (`common/src/constants.rs`) -/

def ramStartAddress : Nat := 0x80000000
def stackCanarySize : Nat := 128

/-! ## Machine arithmetic on naturals -/

/-- `u64::checked_add`. -/
def checkedAdd (a b : Nat) : Option Nat := if a + b < 2 ^ 64 then .some (a + b) else .none

/-- `u64::checked_sub`. -/
def checkedSub (a b : Nat) : Option Nat := if b ≤ a then .some (a - b) else .none

/-- `u64::checked_mul`. -/
def checkedMul (a b : Nat) : Option Nat := if a * b < 2 ^ 64 then .some (a * b) else .none

/-- `u64` subtraction as the release build does it. -/
def wrappingSub (a b : Nat) : Nat := (a + 2 ^ 64 - b) % 2 ^ 64

/-- `u64::is_power_of_two`. -/
def isPowerOfTwo (n : Nat) : Bool := n != 0 && n &&& (n - 1) == 0

/-- `u64::next_power_of_two`, below its overflow. -/
def nextPowerOfTwo (n : Nat) : Nat := if n ≤ 1 then 1 else 2 ^ ((n - 1).log2 + 1)

theorem checkedAdd_eq_some {a b c : Nat} : checkedAdd a b = .some c ↔ a + b < 2 ^ 64 ∧ c = a + b := by
  simp only [checkedAdd]
  split <;> simp_all [eq_comm]

theorem checkedSub_eq_some {a b c : Nat} : checkedSub a b = .some c ↔ b ≤ a ∧ c = a - b := by
  simp only [checkedSub]
  split <;> simp_all [eq_comm]

theorem checkedMul_eq_some {a b c : Nat} : checkedMul a b = .some c ↔ a * b < 2 ^ 64 ∧ c = a * b := by
  simp only [checkedMul]
  split <;> simp_all [eq_comm]

theorem le_nextPowerOfTwo (n : Nat) : n ≤ nextPowerOfTwo n := by
  simp only [nextPowerOfTwo]
  split
  · omega
  · have := @Nat.lt_log2_self (n - 1)
    omega

/-! ## The memory layout -/

structure MemoryConfig where
  maxInputSize : Nat
  maxTrustedAdviceSize : Nat
  maxUntrustedAdviceSize : Nat
  maxOutputSize : Nat
  stackSize : Nat
  heapSize : Nat
  programSize : Option Nat

structure MemoryLayout where
  programSize : Nat
  maxTrustedAdviceSize : Nat
  trustedAdviceStart : Nat
  trustedAdviceEnd : Nat
  maxUntrustedAdviceSize : Nat
  untrustedAdviceStart : Nat
  untrustedAdviceEnd : Nat
  maxInputSize : Nat
  maxOutputSize : Nat
  inputStart : Nat
  inputEnd : Nat
  outputStart : Nat
  outputEnd : Nat
  stackSize : Nat
  stackEnd : Nat
  heapSize : Nat
  heapEnd : Nat
  panic : Nat
  termination : Nat
  ioEnd : Nat

/-- `align_up`, the helper of `MemoryLayout::new`. -/
def alignUp (val align : Nat) : Option Nat :=
  if align = 0 then .some val
  else if val % align = 0 then .some val
  else checkedAdd val (align - val % align)

/-- The two advice regions, the larger (or, on a tie, the trusted) one first:
trusted start and end, untrusted start and end. -/
def adviceRegions (ioBytes trusted untrusted : Nat) : Option (Nat × Nat × Nat × Nat) := do
  if untrusted ≤ trusted then
    let trustedStart ← checkedSub ramStartAddress ioBytes
    let trustedEnd ← checkedAdd trustedStart trusted
    let untrustedEnd ← checkedAdd trustedEnd untrusted
    pure (trustedStart, trustedEnd, trustedEnd, untrustedEnd)
  else
    let untrustedStart ← checkedSub ramStartAddress ioBytes
    let untrustedEnd ← checkedAdd untrustedStart untrusted
    let trustedEnd ← checkedAdd untrustedEnd trusted
    pure (untrustedEnd, trustedEnd, untrustedStart, untrustedEnd)

/-- `MemoryLayout::new`. -/
def MemoryLayout.new (config : MemoryConfig) : Option MemoryLayout := do
  let programSize ← config.programSize
  let maxTrustedAdviceSize ← alignUp config.maxTrustedAdviceSize 8
  let maxUntrustedAdviceSize ← alignUp config.maxUntrustedAdviceSize 8
  let maxInputSize ← alignUp config.maxInputSize 8
  let maxOutputSize ← alignUp config.maxOutputSize 8
  let stackSize ← alignUp config.stackSize 8
  let heapSize ← alignUp config.heapSize 8
  guard (isPowerOfTwo maxTrustedAdviceSize || maxTrustedAdviceSize == 0)
  guard (isPowerOfTwo maxUntrustedAdviceSize || maxUntrustedAdviceSize == 0)
  -- 16 bytes for the panic and the termination doubleword.
  let s ← checkedAdd maxInputSize maxTrustedAdviceSize
  let s ← checkedAdd s maxUntrustedAdviceSize
  let s ← checkedAdd s maxOutputSize
  let ioRegionBytes ← checkedAdd s 16
  let ioBytes ← checkedMul (nextPowerOfTwo (ioRegionBytes / 8)) 8
  let (trustedAdviceStart, trustedAdviceEnd, untrustedAdviceStart, untrustedAdviceEnd) ←
    adviceRegions ioBytes maxTrustedAdviceSize maxUntrustedAdviceSize
  let inputStart := max untrustedAdviceEnd trustedAdviceEnd
  let inputEnd ← checkedAdd inputStart maxInputSize
  let outputStart := inputEnd
  let outputEnd ← checkedAdd outputStart maxOutputSize
  let panic := outputEnd
  let termination ← checkedAdd panic 8
  let ioEnd ← checkedAdd termination 8
  let stackEnd ← checkedAdd ramStartAddress programSize
  let stackStart ← checkedAdd stackEnd stackCanarySize
  let stackStart ← checkedAdd stackStart stackSize
  let heapEnd ← checkedAdd stackStart heapSize
  pure {
    programSize, maxTrustedAdviceSize, trustedAdviceStart, trustedAdviceEnd,
    maxUntrustedAdviceSize, untrustedAdviceStart, untrustedAdviceEnd, maxInputSize,
    maxOutputSize, inputStart, inputEnd, outputStart, outputEnd, stackSize, stackEnd,
    heapSize, heapEnd, panic, termination, ioEnd }

def MemoryLayout.getLowestAddress (l : MemoryLayout) : Nat :=
  min l.trustedAdviceStart l.untrustedAdviceStart

/-! ## The device -/

/-- The layout is one `MemoryLayout::new` computes, as in every device that
`JoltDevice::new` makes. -/
structure JoltDevice where
  inputs : List U8
  trustedAdvice : List U8
  untrustedAdvice : List U8
  outputs : List U8
  panic : Bool
  memoryLayout : MemoryLayout
  laidOut : ∃ config, MemoryLayout.new config = .some memoryLayout

namespace JoltDevice

/-- `JoltDevice::new`. -/
def new (config : MemoryConfig) : Option JoltDevice :=
  match h : MemoryLayout.new config with
  | .none => .none
  | .some memoryLayout => .some {
    inputs := [], trustedAdvice := [], untrustedAdvice := [], outputs := [], panic := false,
    memoryLayout, laidOut := ⟨config, h⟩ }

variable (d : JoltDevice) (address : Nat)

def isInput : Bool := d.memoryLayout.inputStart ≤ address && address < d.memoryLayout.inputEnd

def isTrustedAdvice : Bool :=
  d.memoryLayout.trustedAdviceStart ≤ address && address < d.memoryLayout.trustedAdviceEnd

def isUntrustedAdvice : Bool :=
  d.memoryLayout.untrustedAdviceStart ≤ address && address < d.memoryLayout.untrustedAdviceEnd

/-- Up to `termination`, so the panic doubleword counts as output. -/
def isOutput : Bool := d.memoryLayout.outputStart ≤ address && address < d.memoryLayout.termination

def isPanic : Bool := d.memoryLayout.panic ≤ address && address < d.memoryLayout.termination

def isTermination : Bool := d.memoryLayout.termination ≤ address && address < d.memoryLayout.ioEnd

/-- `JoltDevice::load`: a byte of a region reads as zero past the bytes the
region holds, every byte of the panic doubleword as the panic flag. -/
def load : Option U8 :=
  if d.isPanic address then .some (if d.panic then 1 else 0)
  else if d.isTermination address then .some 0
  else if d.isInput address then
    .some (d.inputs.getD (address - d.memoryLayout.inputStart) 0)
  else if d.isTrustedAdvice address then
    .some (d.trustedAdvice.getD (address - d.memoryLayout.trustedAdviceStart) 0)
  else if d.isUntrustedAdvice address then
    .some (d.untrustedAdvice.getD (address - d.memoryLayout.untrustedAdviceStart) 0)
  else if d.isOutput address then
    .some (d.outputs.getD (address - d.memoryLayout.outputStart) 0)
  else if address ≤ ramStartAddress - 8 then .some 0
  else .none

/-- `outputs.resize(i + 1, 0)` where it is shorter, then `outputs[i] = value`. -/
def setOutput (outputs : List U8) (i : Nat) (value : U8) : List U8 :=
  (outputs ++ List.replicate (i + 1 - outputs.length) 0).set i value

/-- `JoltDevice::store`: only the byte at `panic` itself sets the flag; the
other bytes of the panic and termination doublewords are dropped. -/
def store (value : U8) : Option JoltDevice :=
  if address = d.memoryLayout.panic then .some { d with panic := true }
  else if d.isPanic address || d.isTermination address then .some d
  else
    let internalAddress := wrappingSub address d.memoryLayout.outputStart
    if internalAddress < wrappingSub d.memoryLayout.outputEnd d.memoryLayout.outputStart then
      .some { d with outputs := setOutput d.outputs internalAddress value }
    else .none

end JoltDevice

end LightningJolt
