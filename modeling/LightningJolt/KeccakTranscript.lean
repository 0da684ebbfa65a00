/-
The transcript of the Rust prover and verifier
(`jolt-core/src/transcripts/keccak.rs`, `transcript.rs`), on its bytes. The
hash is a parameter; `n_rounds` wraps, as in a release build.
-/
import LightningJolt.ByteStrings
import LightningJolt.Device
import LightningJolt.ScalarField

namespace LightningJolt

/-- Keccak-256, which the two implementations share. -/
abbrev Keccak256 := List U8 → BitVec 256

/-- The digest as `finalize` returns it. -/
def Keccak256.digest (keccak : Keccak256) (bytes : List U8) : List U8 := beBytes 32 (keccak bytes).toNat

/-- So many draws in a row, each from the transcript that the one before left. -/
def drawn {T α : Type} (draw : T → α × T) : Nat → T → List α × T
  | 0, t => ([], t)
  | len + 1, t => ((draw t).1 :: (drawn draw len (draw t).2).1, (drawn draw len (draw t).2).2)

structure KeccakTranscript where
  state : List U8
  nRounds : U32
deriving DecidableEq

/-! ## Challenges as field elements -/

/-- `MontU128Challenge`. -/
structure MontU128Challenge where
  low : U64
  high : U64
deriving DecidableEq

namespace MontU128Challenge

/-- `new`: the three top bits of the high limb are masked off. -/
def new (value : U128) : MontU128Challenge where
  low := value.setWidth 64
  high := (value >>> 64).setWidth 64 &&& ((-1 : U64) >>> 3)

/-- `to_bigint_array`. -/
def toBigintArray (c : MontU128Challenge) : List U64 := [0, 0, c.low, c.high]

end MontU128Challenge

/-- `Fr::from_bigint_unchecked`: the limbs become those of the Montgomery form, the element
times `2 ^ 256`. -/
def fromBigintUnchecked (limbs : List U64) : Fr :=
  (limbs.foldr (fun limb acc => (limb.toNat : Fr) + 2 ^ 64 * acc) 0) * (2 ^ 256)⁻¹

def MontU128Challenge.into (c : MontU128Challenge) : Fr := fromBigintUnchecked c.toBigintArray

instance : Challenge MontU128Challenge Fr := ⟨MontU128Challenge.into⟩

/-- `F::from_bytes`. -/
def frFromBytes (bytes : List U8) : Fr := ofLe bytes

namespace KeccakTranscript

variable (keccak : Keccak256)

/-! ## Appending -/

/-- The bytes that `hasher` starts from. -/
def hasher (t : KeccakTranscript) : List U8 :=
  t.state ++ (List.replicate 28 0 ++ beBytes 4 t.nRounds.toNat)

def updateState (t : KeccakTranscript) (newState : List U8) : KeccakTranscript where
  state := newState
  nRounds := t.nRounds + 1

/-- `padded`: zeros after the label. -/
def padded (width : Nat) (label : List U8) : List U8 := label ++ List.replicate (width - label.length) 0

def new (label : List U8) : Option KeccakTranscript :=
  if label.length < 33 then .some { state := keccak.digest (padded 32 label), nRounds := 0 } else .none

def rawAppendBytes (bytes : List U8) (t : KeccakTranscript) : KeccakTranscript :=
  t.updateState (keccak.digest (t.hasher ++ bytes))

def rawAppendLabel (label : List U8) (t : KeccakTranscript) : Option KeccakTranscript :=
  if label.length < 33 then .some (t.rawAppendBytes keccak (padded 32 label)) else .none

/-- `raw_append_label_with_len`, with `MAX_LABEL_LEN_WITH_LENGTH`. -/
def rawAppendLabelWithLen (label : List U8) (len : Nat) (t : KeccakTranscript) : Option KeccakTranscript :=
  if label.length ≤ 24 then .some (t.rawAppendBytes keccak (padded 24 label ++ beBytes 8 len)) else .none

def rawAppendU64 (x : U64) (t : KeccakTranscript) : KeccakTranscript :=
  t.rawAppendBytes keccak (List.replicate 24 0 ++ beBytes 8 x.toNat)

/-- The canonical bytes of the scalar, reversed. -/
def rawAppendScalar (scalar : Fr) (t : KeccakTranscript) : KeccakTranscript :=
  t.rawAppendBytes keccak (leBytes 32 scalar.val).reverse

def appendBytes (label bytes : List U8) (t : KeccakTranscript) : Option KeccakTranscript := do
  let t ← t.rawAppendLabelWithLen keccak label bytes.length
  pure (t.rawAppendBytes keccak bytes)

def appendU64 (label : List U8) (x : U64) (t : KeccakTranscript) : Option KeccakTranscript := do
  let t ← t.rawAppendLabel keccak label
  pure (t.rawAppendU64 keccak x)

def appendScalar (label : List U8) (scalar : Fr) (t : KeccakTranscript) : Option KeccakTranscript := do
  let t ← t.rawAppendLabel keccak label
  pure (t.rawAppendScalar keccak scalar)

def appendScalars (label : List U8) (scalars : List Fr) (t : KeccakTranscript) :
    Option KeccakTranscript := do
  let t ← t.rawAppendLabelWithLen keccak label scalars.length
  pure (scalars.foldl (fun t s => t.rawAppendScalar keccak s) t)

/-! ## Challenges -/

def challengeBytes32 (t : KeccakTranscript) : List U8 × KeccakTranscript :=
  let rand := keccak.digest t.hasher
  (rand, t.updateState rand)

/-- `challenge_bytes`, of a buffer of so many bytes. -/
def challengeBytes (len : Nat) (t : KeccakTranscript) : List U8 × KeccakTranscript :=
  if 32 < len then
    let (out, t) := t.challengeBytes32 keccak
    let (rest, t) := challengeBytes (len - 32) t
    (out ++ rest, t)
  else
    let (fullRand, t) := t.challengeBytes32 keccak
    (fullRand.take len, t)

/-- `challenge_scalar`, which is `challenge_scalar_128_bits`. -/
def challengeScalar (t : KeccakTranscript) : Fr × KeccakTranscript :=
  let (buf, t) := t.challengeBytes keccak 16
  (frFromBytes buf.reverse, t)

def challengeScalarOptimized (t : KeccakTranscript) : MontU128Challenge × KeccakTranscript :=
  let (buf, t) := t.challengeBytes keccak 16
  (.new (BitVec.ofNat 128 (ofBe buf.reverse)), t)

def challengeVector (len : Nat) (t : KeccakTranscript) : List Fr × KeccakTranscript :=
  drawn (challengeScalar keccak) len t

def challengeVectorOptimized (len : Nat) (t : KeccakTranscript) : List MontU128Challenge × KeccakTranscript :=
  drawn (challengeScalarOptimized keccak) len t

/-- The loop over the powers, from the last one. -/
def powersFrom (q : Fr) : Nat → Fr → List Fr
  | 0, _ => []
  | len + 1, power => power :: powersFrom q len (power * q)

def challengeScalarPowers (len : Nat) (t : KeccakTranscript) : List Fr × KeccakTranscript :=
  let (q, t) := t.challengeScalar keccak
  (powersFrom q len 1, t)

def challengeScalarPowersOptimized (len : Nat) (t : KeccakTranscript) : List Fr × KeccakTranscript :=
  let (q, t) := t.challengeScalarOptimized keccak
  (powersFrom q.into len 1, t)

end KeccakTranscript

end LightningJolt
