/-
The memory management unit (`tracer/src/emulator/mmu.rs`) in 64-bit mode:
which addresses an access may touch, RAM against device, and the record of
each access for the trace.

`addressing_mode` is `AddressingMode::None` in every state (the only caller
of its setter is dead code), so `translate_address` is the identity and no
access traps. The aligned accesses never cross a page, which leaves
`load_bytes` and `store_bytes` their fast path.
-/
import LightningJolt.Memory

namespace LightningJolt

/-- `RAMRead`. -/
structure RamRead where
  address : Nat
  value : U64
deriving DecidableEq

/-- `RAMWrite`. -/
structure RamWrite where
  address : Nat
  preValue : U64
  postValue : U64
deriving DecidableEq

/-- `RAMAccess`. -/
inductive RamAccess
  | read (r : RamRead)
  | write (w : RamWrite)
  | noOp
deriving DecidableEq

structure Mmu where
  memory : MemoryData
  joltDevice : Option JoltDevice

/-- A computation on the memory management unit, `none` on a panic. -/
abbrev MmuM := StateT Mmu Option

namespace Mmu

/-- `Mmu::new`. -/
def new : Mmu := { memory := .empty, joltDevice := .none }

/-- A computation on the RAM behind the unit. -/
def onMemory {α} (x : MemM α) : MmuM α := fun mmu => do
  let (a, m) ← x mmu.memory
  pure (a, { mmu with memory := m })

/-- A byte of the device, which the access expects to be there. -/
def deviceLoad (address : Nat) : MmuM U8 := fun mmu => do
  let d ← mmu.joltDevice
  let b ← d.load address
  pure (b, mmu)

/-- `assert_effective_address`. -/
def validAddress (mmu : Mmu) (ea : Nat) (isWrite : Bool) : Bool :=
  match mmu.joltDevice with
  | .none => true
  | .some d =>
    let l := d.memoryLayout
    if ea < ramStartAddress then
      ea ≤ l.ioEnd && (l.getLowestAddress ≤ ea || ea ≤ ramStartAddress - 8) &&
      if isWrite then d.isOutput ea || d.isPanic ea || d.isTermination ea
      else
        d.isInput ea || d.isTrustedAdvice ea || d.isUntrustedAdvice ea || d.isOutput ea ||
          d.isPanic ea || d.isTermination ea || ea ≤ ramStartAddress - 8
    else if isWrite then
      (ea ≤ l.stackEnd || l.stackEnd + stackCanarySize < ea) && ea < l.heapEnd
    else ea < l.heapEnd

def assertEffectiveLoadAddress (ea : Nat) : MmuM Unit := fun mmu =>
  if mmu.validAddress ea false then .some ((), mmu) else .none

def assertEffectiveStoreAddress (ea : Nat) : MmuM Unit := fun mmu =>
  if mmu.validAddress ea true then .some ((), mmu) else .none

/-! ## Raw accesses -/

/-- The ranges below RAM that a load refuses. -/
def unsupportedLoad (ea : Nat) : Bool :=
  (0x1020 ≤ ea && ea ≤ 0x1fff) || (0x02000000 ≤ ea && ea ≤ 0x0200ffff) ||
  (0x0c000000 ≤ ea && ea ≤ 0x0fffffff) || (0x10000000 ≤ ea && ea ≤ 0x100000ff) ||
  (0x10001000 ≤ ea && ea ≤ 0x10001fff)

/-- The ranges below RAM that a store refuses. -/
def unsupportedStore (ea : Nat) : Bool :=
  (0x02000000 ≤ ea && ea ≤ 0x0200ffff) || (0x0c000000 ≤ ea && ea ≤ 0x0fffffff) ||
  (0x10000000 ≤ ea && ea ≤ 0x100000ff) || (0x10001000 ≤ ea && ea ≤ 0x10001fff)

/-- The regions `load_raw` hands to the device. -/
def deviceReadable (d : JoltDevice) (ea : Nat) : Bool :=
  d.isInput ea || d.isTrustedAdvice ea || d.isUntrustedAdvice ea || d.isOutput ea ||
    d.isPanic ea || d.isTermination ea || ea ≤ ramStartAddress - 8

/-- The device half of `load_raw`. -/
def loadRawDevice (ea : Nat) : MmuM U8 := fun mmu => do
  let d ← mmu.joltDevice
  if deviceReadable d ea then
    let b ← d.load ea
    pure (b, mmu)
  else .none

def loadRaw (ea : Nat) : MmuM U8 := do
  assertEffectiveLoadAddress ea
  if ramStartAddress ≤ ea then onMemory (Memory.readByte (ea - ramStartAddress))
  else if unsupportedLoad ea then failure
  else loadRawDevice ea

/-- The byte-wise path of the wider raw loads. -/
def loadRawBytes (ea width : Nat) : MmuM U64 := do
  let bytes ← (List.range width).mapM fun i => loadRaw ((ea + i) % 2 ^ 64)
  pure (fromLeBytes bytes)

/-- RAM, and the access does not wrap. -/
def fastPath (ea width : Nat) : Bool :=
  ramStartAddress ≤ ea && ea < (ea + (width - 1)) % 2 ^ 64

def loadHalfwordRaw (ea : Nat) : MmuM U16 := do
  if fastPath ea 2 then
    assertEffectiveLoadAddress ea
    onMemory (Memory.readHalfword (ea - ramStartAddress))
  else
    let d ← loadRawBytes ea 2
    pure (d.setWidth 16)

def loadWordRaw (ea : Nat) : MmuM U32 := do
  if fastPath ea 4 then
    assertEffectiveLoadAddress ea
    onMemory (Memory.readWord (ea - ramStartAddress))
  else
    let d ← loadRawBytes ea 4
    pure (d.setWidth 32)

def loadDoublewordRaw (ea : Nat) : MmuM U64 := do
  if fastPath ea 8 then
    assertEffectiveLoadAddress ea
    onMemory (Memory.readDoubleword (ea - ramStartAddress))
  else
    loadRawBytes ea 8

/-- The device half of `store_raw`. -/
def storeRawDevice (ea : Nat) (value : U8) : MmuM Unit := fun mmu => do
  let d ← mmu.joltDevice
  let d ← d.store ea value
  pure ((), { mmu with joltDevice := .some d })

def storeRaw (ea : Nat) (value : U8) : MmuM Unit := do
  if ramStartAddress ≤ ea then
    assertEffectiveStoreAddress ea
    onMemory (Memory.writeByte (ea - ramStartAddress) value)
  else if unsupportedStore ea then failure
  else
    assertEffectiveStoreAddress ea
    storeRawDevice ea value

/-- The byte-wise path of the wider raw stores. -/
def storeRawBytes (ea : Nat) (value : U64) (width : Nat) : MmuM Unit :=
  (List.range width).forM fun i => storeRaw ((ea + i) % 2 ^ 64) (leByte value i)

def storeHalfwordRaw (ea : Nat) (value : U16) : MmuM Unit := do
  if fastPath ea 2 then
    assertEffectiveStoreAddress ea
    onMemory (Memory.writeHalfword (ea - ramStartAddress) value)
  else
    storeRawBytes ea (value.setWidth 64) 2

def storeWordRaw (ea : Nat) (value : U32) : MmuM Unit := do
  if fastPath ea 4 then
    assertEffectiveStoreAddress ea
    onMemory (Memory.writeWord (ea - ramStartAddress) value)
  else
    storeRawBytes ea (value.setWidth 64) 4

def storeDoublewordRaw (ea : Nat) (value : U64) : MmuM Unit := do
  if fastPath ea 8 then
    assertEffectiveStoreAddress ea
    onMemory (Memory.writeDoubleword (ea - ramStartAddress) value)
  else
    storeRawBytes ea value 8

/-! ## The record of an access -/

/-- Eight bytes from `address`, by the side of RAM or the device that `ea` is
on, as `trace_load` and the `trace_store`s read them. -/
def traceBytes (ea address : Nat) : MmuM U64 := do
  let bytes ← (List.range 8).mapM fun i =>
    if ea < ramStartAddress then deviceLoad (address + i)
    else onMemory (Memory.readByte (address + i - ramStartAddress))
  pure (fromLeBytes bytes)

def traceLoad (ea : Nat) : MmuM RamRead := do
  let wordAddress := ea / 4 * 4
  let value ← traceBytes wordAddress wordAddress
  pure { address := wordAddress, value }

def traceStoreByte (ea : Nat) (value : U64) : MmuM RamWrite := do
  assertEffectiveStoreAddress ea
  let wordAddress := ea / 4 * 4
  let preValue ← traceBytes ea wordAddress
  let postValue := match ea % 4 with
    | 0 => value ||| (preValue &&& 0xffffff00)
    | 1 => (value <<< 8) ||| (preValue &&& 0xffff00ff)
    | 2 => (value <<< 16) ||| (preValue &&& 0xff00ffff)
    | _ => (value <<< 24) ||| (preValue &&& 0x00ffffff)
  pure { address := wordAddress, preValue, postValue }

def traceStoreHalfword (ea : Nat) (value : U64) : MmuM RamWrite := do
  assertEffectiveStoreAddress ea
  let wordAddress := ea / 4 * 4
  let preValue ← traceBytes ea wordAddress
  if ea % 4 = 2 then
    pure { address := wordAddress, preValue, postValue := (value <<< 16) ||| (preValue &&& 0xffff) }
  else if ea % 4 = 0 then
    pure { address := wordAddress, preValue, postValue := value ||| (preValue &&& 0xffff0000) }
  else failure

/-- `trace_store`, of words and doublewords: the record holds the stored value
whatever the device makes of it. -/
def traceStore (ea : Nat) (value : U64) : MmuM RamWrite := do
  assertEffectiveStoreAddress ea
  let preValue ← traceBytes ea ea
  pure { address := ea, preValue, postValue := value }

/-! ## Loads and stores -/

def load (ea : Nat) : MmuM (U8 × RamRead) := do
  let memoryRead ← traceLoad ea
  let b ← loadRaw ea
  pure (b, memoryRead)

def loadHalfword (ea : Nat) : MmuM (U16 × RamRead) := do
  guard (ea % 2 = 0)
  let memoryRead ← traceLoad ea
  let d ← loadHalfwordRaw ea
  pure (d, memoryRead)

def loadWord (ea : Nat) : MmuM (U32 × RamRead) := do
  guard (ea % 4 = 0)
  let memoryRead ← traceLoad ea
  let d ← loadWordRaw ea
  pure (d, memoryRead)

def loadDoubleword (ea : Nat) : MmuM (U64 × RamRead) := do
  guard (ea % 8 = 0)
  let memoryRead ← traceLoad ea
  let d ← loadDoublewordRaw ea
  pure (d, memoryRead)

def store (ea : Nat) (value : U8) : MmuM RamWrite := do
  let memoryWrite ← traceStoreByte ea (value.setWidth 64)
  storeRaw ea value
  pure memoryWrite

def storeHalfword (ea : Nat) (value : U16) : MmuM RamWrite := do
  guard (ea % 2 = 0)
  let memoryWrite ← traceStoreHalfword ea (value.setWidth 64)
  storeHalfwordRaw ea value
  pure memoryWrite

def storeWord (ea : Nat) (value : U32) : MmuM RamWrite := do
  guard (ea % 4 = 0)
  let memoryWrite ← traceStore ea (value.setWidth 64)
  storeWordRaw ea value
  pure memoryWrite

def storeDoubleword (ea : Nat) (value : U64) : MmuM RamWrite := do
  guard (ea % 8 = 0)
  let memoryWrite ← traceStore ea value
  storeDoublewordRaw ea value
  pure memoryWrite

/-- `fetch_word`: one load where the word lies in a page, else byte by byte. -/
def fetchWord (address : Nat) : MmuM U32 := do
  if address % 0x1000 ≤ 0x1000 - 4 then loadWordRaw address
  else
    let bytes ← (List.range 4).mapM fun i => loadRaw ((address + i) % 2 ^ 64)
    pure ((fromLeBytes bytes).setWidth 32)

end Mmu

end LightningJolt
