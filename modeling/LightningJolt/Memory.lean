/-
The emulator's RAM (`tracer/src/emulator/memory.rs`): a sparse map of
doublewords, zero where nothing was written, that can record for a checkpoint
the value each doubleword had at its first access. Reads record too, so every
access is a computation on the memory; an out-of-bounds access is a panic.
-/
import LightningJolt.Device

namespace LightningJolt

/-- `u64::from_le_bytes`, and the loops that or shifted bytes together. -/
def fromLeBytes (bytes : List U8) : U64 :=
  bytes.foldr (fun b acc => acc <<< 8 ||| b.setWidth 64) 0

/-- Byte `i` of a value, the lowest first. -/
def leByte (value : U64) (i : Nat) : U8 := (value >>> (8 * i)).setWidth 8

structure MemoryData where
  /-- The value `HashMap::entry(index).or_insert(0)` gives. -/
  memory : Nat → U64
  numDoublewords : Nat
  /-- First-access values by index, while checkpoints are being saved. -/
  checkpoint : Option (Nat → Option U64)

/-- A computation on the memory, `none` on a panic. -/
abbrev MemM := StateT MemoryData Option

namespace MemoryData

/-- `MemoryData::empty`. -/
def empty : MemoryData := { memory := fun _ => 0, numDoublewords := 0, checkpoint := .none }

/-- `MemoryData::init_with_capacity`: `capacity.div_ceil(8)` doublewords. -/
def initWithCapacity (m : MemoryData) (capacity : Nat) : MemoryData :=
  { m with numDoublewords := (capacity + 7) / 8 }

/-- The recording half of `access_u64`: an index keeps its first value. -/
def record (m : MemoryData) (index : Nat) : MemoryData :=
  { m with checkpoint := m.checkpoint.map fun c i =>
      if i = index then (c index).or (.some (m.memory index)) else c i }

/-- `access_u64`, read: the doubleword at `index`. -/
def accessU64 (index : Nat) : MemM U64 := fun m =>
  if index < m.numDoublewords then .some (m.memory index, m.record index) else .none

/-- `*access_u64(index) = value`. -/
def assignU64 (index : Nat) (value : U64) : MemM Unit := fun m =>
  if index < m.numDoublewords then
    .some ((), { m.record index with memory := Function.update m.memory index value })
  else .none

/-- `save_checkpoint`: the recorded values as a memory of their own, and the
recording begun anew. -/
def saveCheckpoint (m : MemoryData) : Option (MemoryData × MemoryData) := do
  let c ← m.checkpoint
  pure ({ memory := fun i => (c i).getD 0, numDoublewords := m.numDoublewords, checkpoint := .none },
    { m with checkpoint := .some fun _ => .none })

/-- `start_saving_checkpoints`. -/
def startSavingCheckpoints (m : MemoryData) : MemoryData :=
  { m with checkpoint := m.checkpoint.or (.some fun _ => .none) }

end MemoryData

/-! ## `Memory`: bytes to doublewords over the data -/

namespace Memory

open MemoryData

def readByte (address : Nat) : MemM U8 := do
  let d ← accessU64 (address / 8)
  pure ((d >>> (8 * (address % 8))).setWidth 8)

/-- The byte-wise path of the wider reads. -/
def readBytes (address width : Nat) : MemM U64 := do
  let bytes ← (List.range width).mapM fun i => readByte (address + i)
  pure (fromLeBytes bytes)

def readHalfword (address : Nat) : MemM U16 := do
  if address % 2 = 0 then
    let d ← accessU64 (address / 8)
    pure ((d >>> (8 * (address % 8))).setWidth 16)
  else
    let d ← readBytes address 2
    pure (d.setWidth 16)

def readWord (address : Nat) : MemM U32 := do
  if address % 4 = 0 then
    let d ← accessU64 (address / 8)
    pure ((d >>> (8 * (address % 8))).setWidth 32)
  else
    let d ← readBytes address 4
    pure (d.setWidth 32)

def readDoubleword (address : Nat) : MemM U64 := do
  if address % 8 = 0 then
    accessU64 (address / 8)
  else if address % 4 = 0 then
    let lo ← readWord address
    let hi ← readWord (address + 4)
    pure (lo.setWidth 64 ||| hi.setWidth 64 <<< 32)
  else
    readBytes address 8

/-- A doubleword with the field `mask` moved up `pos` bits replaced. -/
def blend (d mask value : U64) (pos : Nat) : U64 := (d &&& ~~~(mask <<< pos)) ||| (value <<< pos)

def writeByte (address : Nat) (value : U8) : MemM Unit := do
  let d ← accessU64 (address / 8)
  assignU64 (address / 8) (blend d 0xff (value.setWidth 64) (8 * (address % 8)))

/-- The byte-wise path of the wider writes. -/
def writeBytes (address : Nat) (value : U64) (width : Nat) : MemM Unit :=
  (List.range width).forM fun i => writeByte (address + i) (leByte value i)

def writeHalfword (address : Nat) (value : U16) : MemM Unit := do
  if address % 2 = 0 then
    let d ← accessU64 (address / 8)
    assignU64 (address / 8) (blend d 0xffff (value.setWidth 64) (8 * (address % 8)))
  else
    writeBytes address (value.setWidth 64) 2

def writeWord (address : Nat) (value : U32) : MemM Unit := do
  if address % 4 = 0 then
    let d ← accessU64 (address / 8)
    assignU64 (address / 8) (blend d 0xffffffff (value.setWidth 64) (8 * (address % 8)))
  else
    writeBytes address (value.setWidth 64) 4

def writeDoubleword (address : Nat) (value : U64) : MemM Unit := do
  if address % 8 = 0 then
    assignU64 (address / 8) value
  else if address % 4 = 0 then
    writeWord address (value.setWidth 32)
    writeWord (address + 4) ((value >>> 32).setWidth 32)
  else
    writeBytes address value 8

end Memory

end LightningJolt
