/-
The on-chain transcript (`onchain-verifier/contracts/JoltTranscript.sol`), on
the words of its memory. `none` is a revert. What a block of assembly writes
past the free memory pointer only to hash it is given as the bytes hashed.
-/
import LightningJolt.KeccakTranscript

namespace LightningJolt

/-- A word of the machine. -/
abbrev Word := BitVec 256

namespace Word

/-- The bytes `mstore` writes. -/
def bytes (w : Word) : List U8 := beBytes 32 w.toNat

/-- `mulmod`, of a modulus that is not zero. -/
def mulmod (a b : Word) (m : Nat) : Word := BitVec.ofNat 256 (a.toNat * b.toNat % m)

/-- `addmod`. -/
def addmod (a b : Word) (m : Nat) : Word := BitVec.ofNat 256 ((a.toNat + b.toNat) % m)

end Word

namespace JoltTranscript

/-- `Transcript`: two words of memory, the second declared as a `uint32`. -/
structure Transcript where
  state : Word
  nRounds : Word
deriving DecidableEq

namespace Transcript

variable (keccak : Keccak256)

/-! ## Appending -/

/-- A label literal as a `bytes32`. -/
def bytes32 (label : List U8) : Word := BitVec.ofNat 256 (ofBe label * 256 ^ (32 - label.length))

/-- A label literal as a `bytes24`, in the high bytes of its word. -/
def bytes24 (label : List U8) : Word :=
  BitVec.ofNat 256 (ofBe label * 256 ^ (24 - label.length) * 256 ^ 8)

/-- `newTranscript`: the word loaded holds the label and, after it, whatever is in memory. -/
def newTranscript (label after : List U8) : Option Transcript :=
  if label.length < 33 then
    let padded : Word := BitVec.ofNat 256 (ofBe ((label ++ after).take 32))
    let padded := if label.length < 32 then padded &&& ~~~((-1 : Word) >>> (label.length * 8)) else padded
    .some { state := keccak padded.bytes, nRounds := 0 }
  else .none

/-- The assembly block that hashes state, counter and one word. -/
def appendWord (t : Transcript) (w : Word) : Transcript where
  state := keccak (t.state.bytes ++ t.nRounds.bytes ++ w.bytes)
  nRounds := t.nRounds + 1

def appendLabel (t : Transcript) (label : Word) : Transcript := t.appendWord keccak label

def appendU64 (t : Transcript) (x : U64) : Transcript := t.appendWord keccak (x.setWidth 256)

def appendScalar (t : Transcript) (scalar : Word) : Transcript := t.appendWord keccak scalar

/-- The same block with a byte string in the place of the word. -/
def appendRaw (t : Transcript) (data : List U8) : Transcript where
  state := keccak (t.state.bytes ++ t.nRounds.bytes ++ data)
  nRounds := t.nRounds + 1

def appendLabeledU64 (t : Transcript) (label : Word) (x : U64) : Transcript :=
  (t.appendLabel keccak label).appendU64 keccak x

def appendLabeledScalar (t : Transcript) (label scalar : Word) : Transcript :=
  (t.appendLabel keccak label).appendScalar keccak scalar

def appendLabeledScalars (t : Transcript) (label : Word) (scalars : List Word) : Transcript :=
  scalars.foldl (fun t s => t.appendWord keccak s)
    (t.appendWord keccak (label ||| BitVec.ofNat 256 scalars.length))

def appendLabeledBytes (t : Transcript) (label : Word) (dataLen : U64) (data : List U8) : Transcript :=
  (t.appendWord keccak (label ||| dataLen.setWidth 256)).appendRaw keccak data

/-! ## Challenges -/

/-- The digest of state and counter, which becomes the state. -/
def challengeHash (t : Transcript) : Word × Transcript :=
  let hash := keccak (t.state.bytes ++ t.nRounds.bytes)
  (hash, { state := hash, nRounds := t.nRounds + 1 })

def challengeScalar (t : Transcript) : Word × Transcript :=
  let (hash, t) := t.challengeHash keccak
  (hash >>> 128, t)

/-- One step of the byte reversal: neighbouring blocks of `k` bits change places. -/
def swapBlocks (k : Nat) (high low : Word) (v : Word) : Word := ((v &&& high) >>> k) ||| ((v &&& low) <<< k)

/-- The reversal of the low sixteen bytes. -/
def reverseBytes (v : Word) : Word :=
  let v := swapBlocks 8 0xFF00FF00FF00FF00FF00FF00FF00FF00 0x00FF00FF00FF00FF00FF00FF00FF00FF v
  let v := swapBlocks 16 0xFFFF0000FFFF0000FFFF0000FFFF0000 0x0000FFFF0000FFFF0000FFFF0000FFFF v
  let v := swapBlocks 32 0xFFFFFFFF00000000FFFFFFFF00000000 0x00000000FFFFFFFF00000000FFFFFFFF v
  (v >>> 64) ||| ((v <<< 64) &&& 0xFFFFFFFFFFFFFFFFFFFFFFFFFFFFFFFF)

/-- `INV_TWO_128`. -/
def invTwo128 : Word := 0x133100d71fdf35792b16366f4f7684df54ad7e14a329e70f18ee753c76f9dc6f

def challengeScalarMont (t : Transcript) : Word × Transcript :=
  let (hash, t) := t.challengeHash keccak
  let v := reverseBytes (hash >>> 128)
  let low64 := v &&& 0xFFFFFFFFFFFFFFFF
  let high64 := (v >>> 64) &&& (((1 : Word) <<< 61) - 1)
  let rawU128 := low64 ||| (high64 <<< 64)
  (rawU128.mulmod invTwo128 scalarModulus, t)

def challengeVector (len : Nat) (t : Transcript) : List Word × Transcript :=
  drawn (challengeScalar keccak) len t

def challengeVectorMont (len : Nat) (t : Transcript) : List Word × Transcript :=
  drawn (challengeScalarMont keccak) len t

/-- The loop over the powers, from the last one. -/
def powersFrom (q : Word) : Nat → Word → List Word
  | 0, _ => []
  | len + 1, power => power :: powersFrom q len (power.mulmod q scalarModulus)

/-- `challengeScalarPowers`: `powers[0]` is out of bounds in an empty array. -/
def challengeScalarPowers (len : Nat) (t : Transcript) : Option (List Word × Transcript) :=
  let (q, t) := t.challengeScalar keccak
  if len = 0 then .none else .some (powersFrom q len 1, t)

/-- `challengeScalarPowersMont`, the same of the other challenge. -/
def challengeScalarPowersMont (len : Nat) (t : Transcript) : Option (List Word × Transcript) :=
  let (q, t) := t.challengeScalarMont keccak
  if len = 0 then .none else .some (powersFrom q len 1, t)

end Transcript

end JoltTranscript

end LightningJolt
