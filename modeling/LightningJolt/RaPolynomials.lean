/-
The rows of one-hot polynomials during the rounds over the cycles
(`jolt-core/src/poly/ra_poly.rs`, `jolt-core/src/poly/shared_ra_polys.rs`): indices with
one, two and then four scaled copies of a table, materialised by the third binding, for
one polynomial and for all of them over the same rows.
-/
import LightningJolt.DenseBinding
import LightningJolt.StagePoints

namespace LightningJolt

variable {F : Type} [JoltField F]

/-! ## One polynomial -/

/-- What a table holds for an index, zero for none; an index past the table panics. -/
def entryOf (table : List F) : Option Nat → Option F
  | .none => .some 0
  | .some k => table[k]?

/-- What a table holds for the index at a position. -/
def entry (table : List F) (lookupIndices : List (Option Nat)) (j : Nat) : Option F := do
  entryOf table (← lookupIndices[j]?)

/-- `eq(0, r)`. -/
def eqZero (r : F) : F := EqPolynomial.mle [0] [r]

/-- `eq(1, r)`. -/
def eqOne (r : F) : F := EqPolynomial.mle [1] [r]

structure RaPolynomialRound1 (F : Type) where
  table : List F
  lookupIndices : List (Option Nat)

structure RaPolynomialRound2 (F : Type) where
  table0 : List F
  table1 : List F
  lookupIndices : List (Option Nat)
  bindingOrder : BindingOrder

structure RaPolynomialRound3 (F : Type) where
  table00 : List F
  table01 : List F
  table10 : List F
  table11 : List F
  lookupIndices : List (Option Nat)
  bindingOrder : BindingOrder

namespace RaPolynomialRound1

variable (s : RaPolynomialRound1 F)

def getBoundCoeff (j : Nat) : Option F := entry s.table s.lookupIndices j

def bind (r0 : F) (bindingOrder : BindingOrder) : RaPolynomialRound2 F where
  table0 := s.table.map (eqZero r0 * ·)
  table1 := s.table.map (eqOne r0 * ·)
  lookupIndices := s.lookupIndices
  bindingOrder := bindingOrder

end RaPolynomialRound1

namespace RaPolynomialRound2

variable (s : RaPolynomialRound2 F)

def getBoundCoeff (j : Nat) : Option F := do
  let mid := s.lookupIndices.length / 2
  match s.bindingOrder with
  | .highToLow =>
    let h0 ← entry s.table0 s.lookupIndices j
    let h1 ← entry s.table1 s.lookupIndices (mid + j)
    .some (h0 + h1)
  | .lowToHigh =>
    let h0 ← entry s.table0 s.lookupIndices (2 * j)
    let h1 ← entry s.table1 s.lookupIndices (2 * j + 1)
    .some (h0 + h1)

def bind (r1 : F) (bindingOrder : BindingOrder) : Option (RaPolynomialRound3 F) :=
  if bindingOrder = s.bindingOrder then .some
    { table00 := s.table0.map (· * eqZero r1)
      table01 := s.table0.map (· * eqOne r1)
      table10 := s.table1.map (· * eqZero r1)
      table11 := s.table1.map (· * eqOne r1)
      lookupIndices := s.lookupIndices
      bindingOrder := s.bindingOrder }
  else .none

end RaPolynomialRound2

namespace RaPolynomialRound3

variable (s : RaPolynomialRound3 F)

def getBoundCoeff (j : Nat) : Option F :=
  match s.bindingOrder with
  | .highToLow => do
    let n := s.lookupIndices.length / 4
    let h00 ← entry s.table00 s.lookupIndices j
    let h01 ← entry s.table01 s.lookupIndices (j + n)
    let h10 ← entry s.table10 s.lookupIndices (j + n * 2)
    let h11 ← entry s.table11 s.lookupIndices (j + n * 3)
    .some (h00 + h10 + h01 + h11)
  | .lowToHigh => do
    let h00 ← entry s.table00 s.lookupIndices (4 * j)
    let h10 ← entry s.table10 s.lookupIndices (4 * j + 1)
    let h01 ← entry s.table01 s.lookupIndices (4 * j + 2)
    let h11 ← entry s.table11 s.lookupIndices (4 * j + 3)
    .some (h00 + h10 + h01 + h11)

/-- The materialised coefficient at a position, from eight copies of the table. -/
def materialize (r2 : F) (j : Nat) : Option F :=
  let zero := fun table : List F => table.map (· * eqZero r2)
  let one := fun table : List F => table.map (· * eqOne r2)
  match s.bindingOrder with
  | .highToLow => do
    let n := s.lookupIndices.length / 8
    let h000 ← entry (zero s.table00) s.lookupIndices j
    let h001 ← entry (one s.table00) s.lookupIndices (j + n)
    let h010 ← entry (zero s.table01) s.lookupIndices (j + n * 2)
    let h011 ← entry (one s.table01) s.lookupIndices (j + n * 3)
    let h100 ← entry (zero s.table10) s.lookupIndices (j + n * 4)
    let h101 ← entry (one s.table10) s.lookupIndices (j + n * 5)
    let h110 ← entry (zero s.table11) s.lookupIndices (j + n * 6)
    let h111 ← entry (one s.table11) s.lookupIndices (j + n * 7)
    .some (h000 + h010 + h100 + h110 + h001 + h011 + h101 + h111)
  | .lowToHigh => do
    let h000 ← entry (zero s.table00) s.lookupIndices (8 * j)
    let h100 ← entry (zero s.table10) s.lookupIndices (8 * j + 1)
    let h010 ← entry (zero s.table01) s.lookupIndices (8 * j + 2)
    let h110 ← entry (zero s.table11) s.lookupIndices (8 * j + 3)
    let h001 ← entry (one s.table00) s.lookupIndices (8 * j + 4)
    let h101 ← entry (one s.table10) s.lookupIndices (8 * j + 5)
    let h011 ← entry (one s.table01) s.lookupIndices (8 * j + 6)
    let h111 ← entry (one s.table11) s.lookupIndices (8 * j + 7)
    .some (h000 + h010 + h100 + h110 + h001 + h011 + h101 + h111)

def bind (r2 : F) : Option (List F) := do
  DensePolynomial.new (← (List.range (s.lookupIndices.length / 8)).mapM (s.materialize r2))

end RaPolynomialRound3

/-- `RaPolynomial`, with the dense coefficients from the fourth round on. -/
inductive RaPolynomial (F : Type) where
  | round1 (mle : RaPolynomialRound1 F)
  | round2 (mle : RaPolynomialRound2 F)
  | round3 (mle : RaPolynomialRound3 F)
  | roundN (mle : List F)

namespace RaPolynomial

def new (lookupIndices : List (Option Nat)) (eqEvals : List F) : RaPolynomial F :=
  .round1 ⟨eqEvals, lookupIndices⟩

def getBoundCoeff : RaPolynomial F → Nat → Option F
  | .round1 mle, j => mle.getBoundCoeff j
  | .round2 mle, j => mle.getBoundCoeff j
  | .round3 mle, j => mle.getBoundCoeff j
  | .roundN mle, j => mle[j]?

def len : RaPolynomial F → Nat
  | .round1 mle => mle.lookupIndices.length
  | .round2 mle => mle.lookupIndices.length / 2
  | .round3 mle => mle.lookupIndices.length / 4
  | .roundN mle => mle.length

def bindParallel (order : BindingOrder) : RaPolynomial F → F → Option (RaPolynomial F)
  | .round1 mle, r => .some (.round2 (mle.bind r order))
  | .round2 mle, r => (mle.bind r order).map .round3
  | .round3 mle, r => (mle.bind r).map .roundN
  | .roundN mle, r => .some (.roundN (DensePolynomial.bind order mle r))

def finalSumcheckClaim : RaPolynomial F → Option F
  | .roundN mle => DensePolynomial.finalSumcheckClaim mle
  | _ => .none

/-- The dense polynomial of the rows. -/
def dense (lookupIndices : List (Option Nat)) (eqEvals : List F) : Option (List F) :=
  lookupIndices.mapM (entryOf eqEvals)

end RaPolynomial

/-! ## All polynomials over the same rows -/

instance neZero_byteValues : NeZero 256 := ⟨by decide⟩

/-- `RaIndices`: the chunks of a cycle, as arrays of bytes. -/
structure RaIndices where
  instruction : Fin 32 → Fin 256
  bytecode : Fin 6 → Fin 256
  ram : Fin 8 → Option (Fin 256)

namespace OneHotParams

/-- `num_polys`. -/
def numPolys (p : OneHotParams) : Nat := p.instructionD + p.bytecodeD + p.ramD

end OneHotParams

/-- An element of an array; a position past its end panics. -/
def elementOf {α : Type} {n : Nat} (array : Fin n → α) (i : Nat) : Option α :=
  if h : i < n then .some (array ⟨i, h⟩) else .none

/-- `get_index`. -/
def RaIndices.getIndex (row : RaIndices) (polyIdx : Nat) (p : OneHotParams) : Option (Option Nat) :=
  if polyIdx < p.instructionD then (elementOf row.instruction polyIdx).map fun k => .some k
  else if polyIdx < p.instructionD + p.bytecodeD then
    (elementOf row.bytecode (polyIdx - p.instructionD)).map fun k => .some k
  else (elementOf row.ram (polyIdx - p.instructionD - p.bytecodeD)).map fun k => k.map fun k => k

/-- What the table of a polynomial holds for its index in a row. -/
def sharedEntry (p : OneHotParams) (tables : List (List F)) (indices : List RaIndices)
    (polyIdx j : Nat) : Option F := do
  match ← (← indices[j]?).getIndex polyIdx p with
  | .none => .some 0
  | .some k => (← tables[polyIdx]?)[k]?

structure SharedRaRound1 (F : Type) where
  tables : List (List F)
  indices : List RaIndices
  numPolys : Nat
  oneHotParams : OneHotParams

structure SharedRaRound2 (F : Type) where
  tables0 : List (List F)
  tables1 : List (List F)
  indices : List RaIndices
  numPolys : Nat
  oneHotParams : OneHotParams
  bindingOrder : BindingOrder

structure SharedRaRound3 (F : Type) where
  tables00 : List (List F)
  tables01 : List (List F)
  tables10 : List (List F)
  tables11 : List (List F)
  indices : List RaIndices
  numPolys : Nat
  oneHotParams : OneHotParams
  bindingOrder : BindingOrder

namespace SharedRaRound1

variable (s : SharedRaRound1 F)

def getBoundCoeff (polyIdx j : Nat) : Option F := sharedEntry s.oneHotParams s.tables s.indices polyIdx j

def bind (r0 : F) (order : BindingOrder) : SharedRaRound2 F where
  tables0 := s.tables.map (·.map (eqZero r0 * ·))
  tables1 := s.tables.map (·.map (eqOne r0 * ·))
  indices := s.indices
  numPolys := s.numPolys
  oneHotParams := s.oneHotParams
  bindingOrder := order

end SharedRaRound1

namespace SharedRaRound2

variable (s : SharedRaRound2 F)

def getBoundCoeff (polyIdx j : Nat) : Option F :=
  match s.bindingOrder with
  | .highToLow => do
    let mid := s.indices.length / 2
    let h0 ← sharedEntry s.oneHotParams s.tables0 s.indices polyIdx j
    let h1 ← sharedEntry s.oneHotParams s.tables1 s.indices polyIdx (mid + j)
    .some (h0 + h1)
  | .lowToHigh => do
    let h0 ← sharedEntry s.oneHotParams s.tables0 s.indices polyIdx (2 * j)
    let h1 ← sharedEntry s.oneHotParams s.tables1 s.indices polyIdx (2 * j + 1)
    .some (h0 + h1)

def bind (r1 : F) (order : BindingOrder) : Option (SharedRaRound3 F) :=
  if order = s.bindingOrder then .some
    { tables00 := s.tables0.map (·.map (· * eqZero r1))
      tables01 := s.tables0.map (·.map (· * eqOne r1))
      tables10 := s.tables1.map (·.map (· * eqZero r1))
      tables11 := s.tables1.map (·.map (· * eqOne r1))
      indices := s.indices
      numPolys := s.numPolys
      oneHotParams := s.oneHotParams
      bindingOrder := order }
  else .none

end SharedRaRound2

namespace SharedRaRound3

variable (s : SharedRaRound3 F)

def getBoundCoeff (polyIdx j : Nat) : Option F :=
  match s.bindingOrder with
  | .highToLow => do
    let quarter := s.indices.length / 4
    let h00 ← sharedEntry s.oneHotParams s.tables00 s.indices polyIdx j
    let h01 ← sharedEntry s.oneHotParams s.tables01 s.indices polyIdx (quarter + j)
    let h10 ← sharedEntry s.oneHotParams s.tables10 s.indices polyIdx (2 * quarter + j)
    let h11 ← sharedEntry s.oneHotParams s.tables11 s.indices polyIdx (3 * quarter + j)
    .some (h00 + h01 + h10 + h11)
  | .lowToHigh => do
    let h00 ← sharedEntry s.oneHotParams s.tables00 s.indices polyIdx (4 * j)
    let h10 ← sharedEntry s.oneHotParams s.tables10 s.indices polyIdx (4 * j + 1)
    let h01 ← sharedEntry s.oneHotParams s.tables01 s.indices polyIdx (4 * j + 2)
    let h11 ← sharedEntry s.oneHotParams s.tables11 s.indices polyIdx (4 * j + 3)
    .some (h00 + h10 + h01 + h11)

/-- `table_groups`, the copies in the order in which both binding orders take them. -/
def tableGroups (r2 : F) : List (List (List F)) :=
  let zero := fun tables : List (List F) => tables.map (·.map (· * eqZero r2))
  let one := fun tables : List (List F) => tables.map (·.map (· * eqOne r2))
  [zero s.tables00, zero s.tables10, zero s.tables01, zero s.tables11,
    one s.tables00, one s.tables10, one s.tables01, one s.tables11]

/-- The position of the index that a copy is for. -/
def groupPosition (j offset : Nat) : Nat :=
  match s.bindingOrder with
  | .lowToHigh => 8 * j + offset
  | .highToLow => offset * (s.indices.length / 8) + j

/-- The materialised coefficient of a polynomial at a position. -/
def materialize (r2 : F) (polyIdx j : Nat) : Option F := do
  let entries ← (List.range 8).mapM fun offset => do
    sharedEntry s.oneHotParams (← (s.tableGroups r2)[offset]?) s.indices polyIdx (s.groupPosition j offset)
  .some entries.sum

def bind (r2 : F) (order : BindingOrder) : Option (List (List F)) :=
  if order = s.bindingOrder then
    (List.range s.numPolys).mapM fun polyIdx => do
      DensePolynomial.new (← (List.range (s.indices.length / 8)).mapM (s.materialize r2 polyIdx))
  else .none

end SharedRaRound3

/-- `SharedRaPolynomials`. -/
inductive SharedRaPolynomials (F : Type) where
  | round1 (r : SharedRaRound1 F)
  | round2 (r : SharedRaRound2 F)
  | round3 (r : SharedRaRound3 F)
  | roundN (polys : List (List F))

namespace SharedRaPolynomials

def new (tables : List (List F)) (indices : List RaIndices) (p : OneHotParams) : SharedRaPolynomials F :=
  .round1 ⟨tables, indices, p.numPolys, p⟩

def getBoundCoeff : SharedRaPolynomials F → Nat → Nat → Option F
  | .round1 r, polyIdx, j => r.getBoundCoeff polyIdx j
  | .round2 r, polyIdx, j => r.getBoundCoeff polyIdx j
  | .round3 r, polyIdx, j => r.getBoundCoeff polyIdx j
  | .roundN polys, polyIdx, j => do (← polys[polyIdx]?)[j]?

def finalSumcheckClaim : SharedRaPolynomials F → Nat → Option F
  | .roundN polys, polyIdx => do DensePolynomial.finalSumcheckClaim (← polys[polyIdx]?)
  | _, _ => .none

/-- `bind` and `bind_in_place`. -/
def bind (order : BindingOrder) : SharedRaPolynomials F → F → Option (SharedRaPolynomials F)
  | .round1 r1, r => .some (.round2 (r1.bind r order))
  | .round2 r2, r => (r2.bind r order).map .round3
  | .round3 r3, r => (r3.bind r order).map .roundN
  | .roundN polys, r => .some (.roundN (polys.map fun p => DensePolynomial.bind order p r))

/-- The dense polynomial of the index of one polynomial in every row. -/
def dense (tables : List (List F)) (indices : List RaIndices) (p : OneHotParams) (polyIdx : Nat) :
    Option (List F) := do
  RaPolynomial.dense (← indices.mapM (·.getIndex polyIdx p)) (← tables[polyIdx]?)

end SharedRaPolynomials

end LightningJolt
