/-
The lookup tables (`jolt-core/src/zkvm/lookup_table`) at a word size of 64:
the entry each of them has at an index, and the interleaving of two operands
into an index.
-/
import LightningJolt.Instruction

namespace LightningJolt

/-! ## Interleaving (`jolt-core/src/utils`) -/

/-- One step of spreading the bits of a word out, the blocks halved. -/
def spreadStep (shift : Nat) (mask : U128) (x : U128) : U128 := (x ||| x <<< shift) &&& mask

def spreadBits (x : U64) : U128 :=
  spreadStep 1 0x55555555555555555555555555555555 <|
  spreadStep 2 0x33333333333333333333333333333333 <|
  spreadStep 4 0x0F0F0F0F0F0F0F0F0F0F0F0F0F0F0F0F <|
  spreadStep 8 0x00FF00FF00FF00FF00FF00FF00FF00FF <|
  spreadStep 16 0x0000FFFF0000FFFF0000FFFF0000FFFF <|
  spreadStep 32 0x00000000FFFFFFFF00000000FFFFFFFF (x.setWidth 128)

/-- `interleave_bits`. -/
def interleaveBits (evenBits oddBits : U64) : U128 := (spreadBits evenBits <<< 1) ||| spreadBits oddBits

/-- One step of gathering every other bit, the blocks doubled. -/
def gatherStep (shift : Nat) (mask : U128) (x : U128) : U128 := (x ||| x >>> shift) &&& mask

def gatherBits (x : U128) : U64 :=
  (gatherStep 32 0x0000000000000000FFFFFFFFFFFFFFFF <|
   gatherStep 16 0x00000000FFFFFFFF00000000FFFFFFFF <|
   gatherStep 8 0x0000FFFF0000FFFF0000FFFF0000FFFF <|
   gatherStep 4 0x00FF00FF00FF00FF00FF00FF00FF00FF <|
   gatherStep 2 0x0F0F0F0F0F0F0F0F0F0F0F0F0F0F0F0F <|
   gatherStep 1 0x33333333333333333333333333333333
     (x &&& 0x55555555555555555555555555555555)).setWidth 64

/-- `uninterleave_bits`. -/
def uninterleaveBits (val : U128) : U64 × U64 := (gatherBits (val >>> 1), gatherBits val)

/-- `LookupBits`: the last `len` bits of an index. -/
structure LookupBits where
  bits : Nat
  len : Nat

namespace LookupBits

def new (bits : U64) : LookupBits := ⟨bits.toNat, 64⟩

/-- `pop_msb`. -/
def popMsb (b : LookupBits) : Nat × LookupBits :=
  (b.bits / 2 ^ (b.len - 1) % 2, ⟨b.bits % 2 ^ (b.len - 1), b.len - 1⟩)

end LookupBits

/-- The loop of the right shifts by a mask, `n` bits before its end: the bits
of `x` under the mask `y` in turn. -/
def shiftLoop : Nat → LookupBits → LookupBits → U64 → U64
  | 0, _, _, entry => entry
  | n + 1, x, y, entry =>
    let (x_i, x) := x.popMsb
    let (y_i, y) := y.popMsb
    shiftLoop n x y (entry * BitVec.ofNat 64 (1 + y_i) + BitVec.ofNat 64 (x_i * y_i))

/-- The loop's other accumulator in an arithmetic shift, at bit `i` of 64. -/
def signLoop : Nat → Nat → LookupBits → U64 → U64
  | 0, _, _, signExtension => signExtension
  | n + 1, i, y, signExtension =>
    let (y_i, y) := y.popMsb
    signLoop n (i + 1) y
      (if i = 0 then signExtension else signExtension + (1 : U64) <<< i * BitVec.ofNat 64 (1 - y_i))

/-- The entry of `VirtualSRLTable`. -/
def srlEntry (x y : U64) : U64 := shiftLoop 64 (.new x) (.new y) 0

/-- The entry of `VirtualSRATable`; the sign bit is `leading_ones` not being 0. -/
def sraEntry (x y : U64) : U64 :=
  let signBit : U64 := if x.msb then 1 else 0
  srlEntry x y + signBit * signLoop 64 0 (.new y) 0

/-- `b >> i & 1`. -/
def bitAt (b : U64) (i : Nat) : Nat := b.toNat / 2 ^ i % 2

/-- The loop of the rotations by a mask, over the bits below `n` downwards. -/
def rotateLoop : Nat → U64 → U64 → U64 → U64 → Nat → U64
  | 0, _, _, firstSum, secondSum, _ => firstSum + secondSum
  | i + 1, xBits, yBits, firstSum, secondSum, prodOnePlusY =>
    let x := bitAt xBits i
    let y := bitAt yBits i
    rotateLoop i xBits yBits (firstSum * BitVec.ofNat 64 (1 + y) + BitVec.ofNat 64 (x * y))
      (secondSum + BitVec.ofNat 64 x * BitVec.ofNat 64 ((1 - y) * prodOnePlusY) * (1 : U64) <<< i)
      (prodOnePlusY * (1 + y))

/-! ## Tables -/

inductive LookupTables
  | RangeCheck | RangeCheckAligned | And | Andn | Or | Xor | Equal | SignedGreaterThanEqual
  | UnsignedGreaterThanEqual | NotEqual | SignedLessThan | UnsignedLessThan | Movsign | UpperWord
  | LessThanEqual | ValidUnsignedRemainder | ValidDiv0 | HalfwordAlignment | WordAlignment
  | LowerHalfWord | SignExtendHalfWord | Pow2 | Pow2W | ShiftRightBitmask | VirtualRev8W | VirtualSRL
  | VirtualSRA | VirtualROTR | VirtualROTRW | VirtualChangeDivisor | VirtualChangeDivisorW
  | MulUNoOverflow
  | VirtualXORROT (rotation : Nat)
  | VirtualXORROTW (rotation : Nat)
deriving DecidableEq

/-- A comparison as a table entry. -/
def boolEntry (b : Bool) : U64 := if b then 1 else 0

/-- The half `lowerHalf` of a word, its sign spread over the other half. -/
def signExtendHalf (lowerHalf : U64) : U64 :=
  if (lowerHalf >>> 31) &&& 1 = 1 then lowerHalf ||| (((1 : U64) <<< 32 - 1) <<< 32) else lowerHalf

/-- `materialize_entry`. -/
def LookupTables.materializeEntry (table : LookupTables) (index : U128) : U64 :=
  let (x, y) := uninterleaveBits index
  match table with
  | .RangeCheck => index.setWidth 64
  | .RangeCheckAligned => index.setWidth 64 &&& ~~~1
  | .And => x &&& y
  | .Andn => x &&& ~~~y
  | .Or => x ||| y
  | .Xor => x ^^^ y
  | .Equal => boolEntry (x == y)
  | .SignedGreaterThanEqual => boolEntry (y.sle x)
  | .UnsignedGreaterThanEqual => boolEntry (y ≤ x)
  | .NotEqual => boolEntry (x != y)
  | .SignedLessThan => boolEntry (x.slt y)
  | .UnsignedLessThan => boolEntry (x < y)
  | .Movsign =>
    if index &&& (1 : U128) <<< 127 ≠ 0 then ((1 : U128) <<< 64 - 1).setWidth 64 else 0
  | .UpperWord => (index >>> 64).setWidth 64
  | .LessThanEqual => boolEntry (x ≤ y)
  | .ValidUnsignedRemainder => boolEntry (y == 0 || x < y)
  | .ValidDiv0 => if x = 0 then boolEntry (y == -1) else 1
  | .HalfwordAlignment => boolEntry (index.toNat % 2 == 0)
  | .WordAlignment => boolEntry (index.toNat % 4 == 0)
  | .LowerHalfWord => BitVec.ofNat 64 (index.toNat % 2 ^ 32)
  | .SignExtendHalfWord => signExtendHalf (BitVec.ofNat 64 (index.toNat % 2 ^ 32))
  | .Pow2 => (1 : U64) <<< (index.toNat % 64)
  | .Pow2W => (1 : U64) <<< (index.toNat % 32)
  | .ShiftRightBitmask =>
    let shift := index.toNat % 64
    (((1 : U128) <<< (64 - shift) - 1).setWidth 64) <<< shift
  | .VirtualRev8W => rev8w (index.setWidth 64)
  | .VirtualSRL => srlEntry x y
  | .VirtualSRA => sraEntry x y
  | .VirtualROTR => rotateLoop 64 x y 0 0 1
  | .VirtualROTRW => rotateLoop 32 x y 0 0 1
  | .VirtualChangeDivisor => if x = BitVec.intMin 64 ∧ y = -1 then 1 else y
  | .VirtualChangeDivisorW =>
    if x.setWidth 32 = BitVec.intMin 32 ∧ y.setWidth 32 = -1 then 1
    else (y.setWidth 32).signExtend 64
  | .MulUNoOverflow => boolEntry (index >>> 64 == 0)
  | .VirtualXORROT rotation => (x ^^^ y).rotateRight rotation
  | .VirtualXORROTW rotation =>
    ((x.setWidth 32 ^^^ y.setWidth 32).rotateRight rotation).setWidth 64

end LightningJolt
