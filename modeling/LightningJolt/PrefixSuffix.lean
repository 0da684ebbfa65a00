/-
Prefix-suffix decompositions (`jolt-core/src/poly/prefix_suffix.rs`,
`jolt-core/src/poly/identity_poly.rs`): the prefix polynomials that a registry keeps
behind references, with a flag and a cache of evaluations, and the decompositions that
take them from it.
-/
import LightningJolt.DenseBinding
import LightningJolt.LookupTable

namespace LightningJolt

variable {F : Type} [JoltField F]

/-! ## Bits of a lookup index -/

namespace LookupBits

/-- `new`, with a length. -/
def ofBits (bits len : Nat) : LookupBits := ⟨bits % 2 ^ len, len⟩

def split (b : LookupBits) (suffixLen : Nat) : LookupBits × LookupBits :=
  (ofBits (b.bits / 2 ^ suffixLen) (b.len - suffixLen), ofBits (b.bits % 2 ^ suffixLen) suffixLen)

def uninterleave (b : LookupBits) : LookupBits × LookupBits :=
  let (x, y) := uninterleaveBits (BitVec.ofNat 128 b.bits)
  (ofBits x.toNat (b.len / 2), ofBits y.toNat (b.len - b.len / 2))

end LookupBits

/-! ## Prefix polynomials and the registry -/

/-- `Prefix`, the polynomial that a decomposition is of. -/
inductive Prefix where
  | rightOperand | leftOperand | identity
deriving DecidableEq

namespace Prefix

/-- The value of the bits: all of them, or those of an operand. -/
def value (kind : Prefix) (b : LookupBits) : Nat :=
  match kind with
  | .identity => b.bits
  | .leftOperand => b.uninterleave.1.bits
  | .rightOperand => b.uninterleave.2.bits

/-- The bits of a value among so many bits. -/
def width (kind : Prefix) (len : Nat) : Nat :=
  match kind with
  | .identity => len
  | .leftOperand => len / 2
  | .rightOperand => len / 2

/-- `suffix_mle` of the two suffixes: the shift past the suffix and its value. -/
def suffixMle (kind : Prefix) (b : LookupBits) : Nat × Nat := (2 ^ kind.width b.len, kind.value b)

end Prefix

/-- `CachedPolynomial`. -/
structure CachedPolynomial (F : Type) where
  inner : List F
  sumcheckEvalsCache : List (Option (F × F))
  boundThisRound : Bool
deriving DecidableEq

namespace CachedPolynomial

def bindParallel (c : CachedPolynomial F) (r : F) : CachedPolynomial F :=
  if c.boundThisRound then c
  else { c with inner := DensePolynomial.bind .highToLow c.inner r, boundThisRound := true }

/-- `cached_sumcheck_evals`, at 0 and 2. -/
def cachedSumcheckEvals (c : CachedPolynomial F) (index : Nat) (useCache : Bool) :
    Option ((F × F) × CachedPolynomial F) := do
  let fresh : Option (F × F) := do
    let evals ← sumcheckEvals (c.inner[·]?) c.inner.length index 2 .highToLow
    .some (← evals[0]?, ← evals[1]?)
  if useCache then
    match ← c.sumcheckEvalsCache[index]? with
    | .some evals => .some (evals, c)
    | .none =>
      let evals ← fresh
      .some (evals, { c with sumcheckEvalsCache := c.sumcheckEvalsCache.set index (.some evals) })
  else .some (← fresh, c)

def clearCache (c : CachedPolynomial F) (useCache : Bool) : CachedPolynomial F where
  inner := c.inner
  sumcheckEvalsCache := if useCache then c.sumcheckEvalsCache.map fun _ => .none else c.sumcheckEvalsCache
  boundThisRound := false

end CachedPolynomial

/-- What a registry keeps of a prefix: the checkpoint, a reference to the polynomial, and, by
their references, the polynomials made so far. -/
structure Slot (F : Type) where
  checkpoint : Option F
  poly : Option Nat
  cells : List (CachedPolynomial F)
deriving DecidableEq

/-- `prefix_polynomial`. -/
def prefixPolynomial (kind : Prefix) (checkpoint : Option F) (chunkLen : Nat) : CachedPolynomial F where
  inner := (List.range (2 ^ chunkLen)).map fun i =>
    checkpoint.getD 0 * 2 ^ kind.width chunkLen + (kind.value (.ofBits i chunkLen) : F)
  sumcheckEvalsCache := List.replicate (2 ^ (chunkLen - 1)) .none
  boundThisRound := false

namespace Slot

/-- `prefixes`: the polynomial is made by the first to ask for it. -/
def prefixes (s : Slot F) (kind : Prefix) (chunkLen : Nat) : Slot F :=
  match s.poly with
  | .some _ => s
  | .none =>
    { s with
      poly := .some s.cells.length
      cells := s.cells ++ [prefixPolynomial kind s.checkpoint chunkLen] }

/-- `update_checkpoints`, of one prefix. -/
def updateCheckpoint (s : Slot F) : Option (Slot F) :=
  match s.poly with
  | .none => .some { s with checkpoint := .none }
  | .some n => do
    let claim ← DensePolynomial.finalSumcheckClaim (← s.cells[n]?).inner
    .some { s with checkpoint := .some claim, poly := .none }

end Slot

/-! ## Decompositions -/

/-- `PrefixSuffixDecomposition`, of order two: the second prefix is the constant one. -/
structure Decomposition (F : Type) where
  kind : Prefix
  p : Option Nat
  q : List F × List F
  chunkLen : Nat
  totalLen : Nat
  phase : Nat
  round : Nat
deriving DecidableEq

/-- What is asked of a decomposition. -/
inductive Call (F : Type) where
  | initP
  | initQ (uEvals : List F) (indices : List Nat) (lookupBits : List LookupBits)
  | sumcheckEvals (index : Nat)
  | bind (r : F)
  | finalSumcheckClaim

namespace Decomposition

def new (kind : Prefix) (chunkLen totalLen : Nat) : Option (Decomposition F) :=
  if totalLen % chunkLen = 0 then .some
    { kind := kind
      p := .none
      q := (List.replicate (2 ^ chunkLen) 0, List.replicate (2 ^ chunkLen) 0)
      chunkLen := chunkLen
      totalLen := totalLen
      phase := 0
      round := 0 }
  else .none

def suffixLen (d : Decomposition F) : Nat := (d.totalLen / d.chunkLen - d.phase - 1) * d.chunkLen

/-- What a cycle adds to the tables at an index of the prefix, before its suffix's values. -/
def bucket (d : Decomposition F) (uEvals : List F) (lookupBits : List LookupBits) (rIndex : Nat) (j : Nat) : F :=
  if (((lookupBits.getD j ⟨0, 0⟩).split d.suffixLen).1.bits &&& (2 ^ d.chunkLen - 1)) = rIndex then uEvals.getD j 0
  else 0

/-- `init_Q`; a cycle without an entry of `u_evals` adds nothing. -/
def initQ (d : Decomposition F) (uEvals : List F) (indices : List Nat) (lookupBits : List LookupBits) :
    Option (List F × List F) :=
  if ∀ j ∈ indices, j < lookupBits.length then
    let suffix := fun j => d.kind.suffixMle ((lookupBits.getD j ⟨0, 0⟩).split d.suffixLen).2
    .some
      (tableOf (2 ^ d.chunkLen) fun rIndex =>
        (indices.map fun j => d.bucket uEvals lookupBits rIndex j * ((suffix j).1 : F)).sum,
      tableOf (2 ^ d.chunkLen) fun rIndex =>
        (indices.map fun j => d.bucket uEvals lookupBits rIndex j * ((suffix j).2 : F)).sum)
  else .none

/-- The evaluations, of a prefix's values at 0 and 2 with the tables of the suffixes. -/
def combine (d : Decomposition F) (index : Nat) (p : F × F) : Option (List F) := do
  let len := d.q.1.length
  let q0Left ← d.q.1[index]?
  let q0Right ← d.q.1[index + len / 2]?
  let q1Left ← d.q.2[index]?
  let q1Right ← d.q.2[index + len / 2]?
  let eval0 := p.1 * q0Left + 1 * q1Left
  let eval2Left := p.2 * q0Left + 1 * q1Left
  let eval2Right := p.2 * q0Right + 1 * q1Right
  .some [eval0, eval2Right + eval2Right - eval2Left]

/-- `next_round`, but for the cache. -/
def nextRound (d : Decomposition F) : Decomposition F :=
  { d with
    round := d.round + 1
    phase := if (d.round + 1) % d.chunkLen = 0 then d.phase + 1 else d.phase }

/-- A call, on the slot of the decomposition's prefix. The references to a polynomial are
counted: over two of them, its evaluations are cached. -/
def act (count : Nat → Nat) (slot : Slot F) (d : Decomposition F) :
    Call F → Option (List F × Slot F × Decomposition F)
  | .initP =>
    let slot := slot.prefixes d.kind d.chunkLen
    .some ([], slot, { d with p := slot.poly })
  | .initQ uEvals indices lookupBits => do .some ([], slot, { d with q := ← d.initQ uEvals indices lookupBits })
  | .sumcheckEvals index =>
    match d.p with
    | .none => do .some (← d.combine index (1, 1), slot, d)
    | .some n => do
      let (p, cell) ← (← slot.cells[n]?).cachedSumcheckEvals index (2 < count n)
      .some (← d.combine index p, { slot with cells := slot.cells.set n cell }, d)
  | .bind r =>
    let d' := { d with q := (DensePolynomial.bind .highToLow d.q.1 r, DensePolynomial.bind .highToLow d.q.2 r) }
    match d.p with
    | .none => .some ([], slot, d'.nextRound)
    | .some n => do
      let cell := ((← slot.cells[n]?).bindParallel r).clearCache (2 < count n)
      .some ([], { slot with cells := slot.cells.set n cell }, d'.nextRound)
  | .finalSumcheckClaim =>
    let suffix := d.kind.suffixMle (.ofBits 0 0)
    match d.p with
    | .none => .some ([(suffix.1 : F) + suffix.2], slot, d)
    | .some n => do
      let claim ← DensePolynomial.finalSumcheckClaim (← slot.cells[n]?).inner
      .some ([claim * suffix.1 + suffix.2], slot, d)

end Decomposition

/-! ## Decompositions over a registry -/

/-- A registry and the decompositions that take their prefixes from it. -/
structure Sharing (F : Type) where
  registry : Prefix → Slot F
  decomps : List (Decomposition F)

inductive Event (F : Type) where
  | call (i : Nat) (c : Call F)
  | updateCheckpoints

namespace Sharing

/-- A new registry. -/
def new (decomps : List (Decomposition F)) : Sharing F := ⟨fun _ => ⟨.none, .none, []⟩, decomps⟩

/-- `Arc::strong_count`: the registry's reference and the decompositions'. -/
def strongCount (s : Sharing F) (kind : Prefix) (n : Nat) : Nat :=
  (if (s.registry kind).poly = .some n then 1 else 0) +
    s.decomps.countP fun d => d.kind = kind ∧ d.p = .some n

/-- A step, with what it returns and to whom. -/
def step (s : Sharing F) : Event F → Option (List (Nat × List F) × Sharing F)
  | .call i c => do
    let d ← s.decomps[i]?
    let (out, slot, d') ← d.act (s.strongCount d.kind) (s.registry d.kind) c
    .some ([(i, out)], ⟨Function.update s.registry d.kind slot, s.decomps.set i d'⟩)
  | .updateCheckpoints => do
    let right ← (s.registry .rightOperand).updateCheckpoint
    let left ← (s.registry .leftOperand).updateCheckpoint
    let identity ← (s.registry .identity).updateCheckpoint
    .some ([], ⟨fun
      | .rightOperand => right
      | .leftOperand => left
      | .identity => identity, s.decomps⟩)

/-- A run, with all that it returns. -/
def run (s : Sharing F) : List (Event F) → Option (List (Nat × List F) × Sharing F)
  | [] => .some ([], s)
  | e :: es => do
    let (out, s) ← s.step e
    let (outs, s) ← run s es
    .some (out ++ outs, s)

end Sharing

end LightningJolt
