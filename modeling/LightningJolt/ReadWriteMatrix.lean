/-
The sparse matrices of the read-write checkings (`jolt-core/src/subprotocols/read_write_matrix`): the
recursive merges of two rows or columns against the sequential ones, and binding a whole matrix.
-/
import LightningJolt.DenseBinding
import LightningJolt.Device
import LightningJolt.ScalarField
import LightningJolt.SparseMerge

namespace LightningJolt

/-! ## Entries -/

/-- The place of an entry, by the coordinate that a merge goes along. -/
def MergeCell.place {E : Type} (key : E → Nat) : MergeCell E → Nat
  | .both e _ => key e
  | .even e => key e
  | .odd o => key o

def MergeCell.map {E A : Type} (f : E → A) : MergeCell E → MergeCell A
  | .both e o => .both (f e) (f o)
  | .even e => .even (f e)
  | .odd o => .odd (f o)

/-- `CycleMajorMatrixEntry`, with what its implementers keep of a place; `T` is the lookup tables. -/
structure CycleMajorMatrixEntry (F E T : Type) where
  row : E → Nat
  column : E → Nat
  bindEntries : MergeCell E → F → T → E
  computeEvals : MergeCell E → F × F → F → T → F × F
  column_bind : ∀ cell r tables, column (bindEntries cell r tables) = cell.place column
  row_bind : ∀ cell r tables, row (bindEntries cell r tables) = cell.place row / 2

/-- `AddressMajorMatrixEntry`, with what its implementers keep of a place; an entry alone at its place
takes the checkpoint of the other column only. -/
structure AddressMajorMatrixEntry (F E : Type) where
  row : E → Nat
  column : E → Nat
  prevVal : E → F
  nextVal : E → F
  bindEntries : MergeCell E → F → F → F → E
  computeEvals : MergeCell E → F → F → F → F → F → F × F
  row_bind : ∀ cell evenCheckpoint oddCheckpoint r,
    row (bindEntries cell evenCheckpoint oddCheckpoint r) = cell.place row
  column_bind : ∀ cell evenCheckpoint oddCheckpoint r,
    column (bindEntries cell evenCheckpoint oddCheckpoint r) = cell.place column / 2
  bind_unread : ∀ r, OwnUnread fun cell evenCheckpoint oddCheckpoint => bindEntries cell evenCheckpoint oddCheckpoint r
  evals_unread : ∀ (inc eq : Nat → F) γ, OwnUnread fun cell evenCheckpoint oddCheckpoint =>
    computeEvals cell evenCheckpoint oddCheckpoint (inc (cell.place row)) (eq (cell.place row)) γ

section Implementers

variable (F : Type) [JoltField F]

structure RamCycleMajorEntry where
  row : Nat
  col : Nat
  prevVal : U64
  nextVal : U64
  valCoeff : F
  raCoeff : F

structure RamAddressMajorEntry where
  row : Nat
  col : Nat
  prevVal : F
  nextVal : F
  valCoeff : F
  raCoeff : F

/-- `OneHotCoeff`: field elements, or indices into a lookup table. -/
structure OneHotCoeff (A L : Type) where
  bind : MergeCell A → F → L → A
  evals : MergeCell A → L → F × F

structure RegistersCycleMajorEntry (A : Type) where
  valCoeff : F
  prevVal : U64
  nextVal : U64
  row : Nat
  raCoeff : A
  waCoeff : A
  col : Nat

structure RegistersAddressMajorEntry where
  prevVal : F
  nextVal : F
  valCoeff : F
  raCoeff : F
  waCoeff : F
  row : Nat
  col : Nat

variable {F}

namespace RamCycleMajorEntry

def bindEntries (r : F) : MergeCell (RamCycleMajorEntry F) → RamCycleMajorEntry F
  | .both even odd => {
    row := even.row / 2
    col := even.col
    raCoeff := even.raCoeff + r * (odd.raCoeff - even.raCoeff)
    valCoeff := even.valCoeff + r * (odd.valCoeff - even.valCoeff)
    prevVal := even.prevVal
    nextVal := odd.nextVal }
  | .even even =>
    let oddValCoeff := (even.nextVal.toNat : F)
    { row := even.row / 2
      col := even.col
      raCoeff := (1 - r) * even.raCoeff
      valCoeff := even.valCoeff + r * (oddValCoeff - even.valCoeff)
      prevVal := even.prevVal
      nextVal := even.nextVal }
  | .odd odd =>
    let evenValCoeff := (odd.prevVal.toNat : F)
    { row := odd.row / 2
      col := odd.col
      raCoeff := r * odd.raCoeff
      valCoeff := evenValCoeff + r * (odd.valCoeff - evenValCoeff)
      prevVal := odd.prevVal
      nextVal := odd.nextVal }

def computeEvals (incEvals : F × F) (γ : F) : MergeCell (RamCycleMajorEntry F) → F × F
  | .both even odd =>
    let raEvals := (even.raCoeff, odd.raCoeff - even.raCoeff)
    let valEvals := (even.valCoeff, odd.valCoeff - even.valCoeff)
    (raEvals.1 * (valEvals.1 + γ * (incEvals.1 + valEvals.1)),
      raEvals.2 * (valEvals.2 + γ * (incEvals.2 + valEvals.2)))
  | .even even =>
    let raEvals := (even.raCoeff, -even.raCoeff)
    let valEvals := (even.valCoeff, (even.nextVal.toNat : F) - even.valCoeff)
    (raEvals.1 * (valEvals.1 + γ * (incEvals.1 + valEvals.1)),
      raEvals.2 * (valEvals.2 + γ * (incEvals.2 + valEvals.2)))
  | .odd odd =>
    let valEvals := ((odd.prevVal.toNat : F), odd.valCoeff - (odd.prevVal.toNat : F))
    (0, odd.raCoeff * (valEvals.2 + γ * (incEvals.2 + valEvals.2)))

/-- Memory's entries read no lookup table. -/
def entry : CycleMajorMatrixEntry F (RamCycleMajorEntry F) Unit where
  row e := e.row
  column e := e.col
  bindEntries cell r _ := bindEntries r cell
  computeEvals cell incEvals γ _ := computeEvals incEvals γ cell
  column_bind cell _ _ := by cases cell <;> rfl
  row_bind cell _ _ := by cases cell <;> rfl

end RamCycleMajorEntry

namespace RamAddressMajorEntry

def bindEntries (evenCheckpoint oddCheckpoint r : F) : MergeCell (RamAddressMajorEntry F) → RamAddressMajorEntry F
  | .both even odd => {
    row := even.row
    col := even.col / 2
    raCoeff := even.raCoeff + r * (odd.raCoeff - even.raCoeff)
    valCoeff := even.valCoeff + r * (odd.valCoeff - even.valCoeff)
    prevVal := even.prevVal + r * (odd.prevVal - even.prevVal)
    nextVal := even.nextVal + r * (odd.nextVal - even.nextVal) }
  | .even even => {
    row := even.row
    col := even.col / 2
    raCoeff := (1 - r) * even.raCoeff
    valCoeff := even.valCoeff + r * (oddCheckpoint - even.valCoeff)
    prevVal := even.prevVal + r * (oddCheckpoint - even.prevVal)
    nextVal := even.nextVal + r * (oddCheckpoint - even.nextVal) }
  | .odd odd => {
    row := odd.row
    col := odd.col / 2
    raCoeff := r * odd.raCoeff
    valCoeff := evenCheckpoint + r * (odd.valCoeff - evenCheckpoint)
    prevVal := evenCheckpoint + r * (odd.prevVal - evenCheckpoint)
    nextVal := evenCheckpoint + r * (odd.nextVal - evenCheckpoint) }

def computeEvals (evenCheckpoint oddCheckpoint incEval eqEval γ : F) : MergeCell (RamAddressMajorEntry F) → F × F
  | .both even odd =>
    let raEvals := (even.raCoeff, odd.raCoeff + odd.raCoeff - even.raCoeff)
    let valEvals := (even.valCoeff, odd.valCoeff + odd.valCoeff - even.valCoeff)
    (eqEval * (raEvals.1 * (valEvals.1 + γ * (incEval + valEvals.1))),
      eqEval * (raEvals.2 * (valEvals.2 + γ * (incEval + valEvals.2))))
  | .even even =>
    let raEvals := (even.raCoeff, -even.raCoeff)
    let valEvals := (even.valCoeff, oddCheckpoint + oddCheckpoint - even.valCoeff)
    (eqEval * (raEvals.1 * (valEvals.1 + γ * (incEval + valEvals.1))),
      eqEval * (raEvals.2 * (valEvals.2 + γ * (incEval + valEvals.2))))
  | .odd odd =>
    let raEvals := ((0 : F), odd.raCoeff + odd.raCoeff)
    let valEvals := (evenCheckpoint, odd.valCoeff + odd.valCoeff - evenCheckpoint)
    (0, eqEval * (raEvals.2 * (valEvals.2 + γ * (incEval + valEvals.2))))

def entry : AddressMajorMatrixEntry F (RamAddressMajorEntry F) where
  row e := e.row
  column e := e.col
  prevVal e := e.prevVal
  nextVal e := e.nextVal
  bindEntries cell evenCheckpoint oddCheckpoint r := bindEntries evenCheckpoint oddCheckpoint r cell
  computeEvals cell evenCheckpoint oddCheckpoint incEval eqEval γ :=
    computeEvals evenCheckpoint oddCheckpoint incEval eqEval γ cell
  row_bind cell _ _ _ := by cases cell <;> rfl
  column_bind cell _ _ _ := by cases cell <;> rfl
  bind_unread _ := ⟨fun _ _ _ _ => rfl, fun _ _ _ _ => rfl⟩
  evals_unread _ _ _ := ⟨fun _ _ _ _ => rfl, fun _ _ _ _ => rfl⟩

end RamAddressMajorEntry

namespace RegistersCycleMajorEntry

variable {A L : Type} (coeff : OneHotCoeff F A L)

def bindEntries (cell : MergeCell (RegistersCycleMajorEntry F A)) (r : F) (raTable waTable : L) :
    RegistersCycleMajorEntry F A :=
  let raCoeff := coeff.bind (cell.map fun e => e.raCoeff) r raTable
  let waCoeff := coeff.bind (cell.map fun e => e.waCoeff) r waTable
  match cell with
  | .both even odd => {
    row := even.row / 2
    col := even.col
    raCoeff, waCoeff
    valCoeff := even.valCoeff + r * (odd.valCoeff - even.valCoeff)
    prevVal := even.prevVal
    nextVal := odd.nextVal }
  | .even even =>
    let oddValCoeff := (even.nextVal.toNat : F)
    { row := even.row / 2
      col := even.col
      raCoeff, waCoeff
      valCoeff := even.valCoeff + r * (oddValCoeff - even.valCoeff)
      prevVal := even.prevVal
      nextVal := even.nextVal }
  | .odd odd =>
    let evenValCoeff := (odd.prevVal.toNat : F)
    { row := odd.row / 2
      col := odd.col
      raCoeff, waCoeff
      valCoeff := evenValCoeff + r * (odd.valCoeff - evenValCoeff)
      prevVal := odd.prevVal
      nextVal := odd.nextVal }

def computeEvals (incEvals : F × F) (raTable waTable : L) (cell : MergeCell (RegistersCycleMajorEntry F A)) : F × F :=
  let raEvals := coeff.evals (cell.map fun e => e.raCoeff) raTable
  let waEvals := coeff.evals (cell.map fun e => e.waCoeff) waTable
  match cell with
  | .both even odd =>
    let valEvals := (even.valCoeff, odd.valCoeff - even.valCoeff)
    (raEvals.1 * valEvals.1 + waEvals.1 * (valEvals.1 + incEvals.1),
      raEvals.2 * valEvals.2 + waEvals.2 * (valEvals.2 + incEvals.2))
  | .even even =>
    let valEvals := (even.valCoeff, (even.nextVal.toNat : F) - even.valCoeff)
    (raEvals.1 * valEvals.1 + waEvals.1 * (valEvals.1 + incEvals.1),
      raEvals.2 * valEvals.2 + waEvals.2 * (valEvals.2 + incEvals.2))
  | .odd odd =>
    let valEvals := ((odd.prevVal.toNat : F), odd.valCoeff - (odd.prevVal.toNat : F))
    (0, raEvals.2 * valEvals.2 + waEvals.2 * (valEvals.2 + incEvals.2))

/-- The two lookup tables, that of the reads and that of the writes. -/
def entry : CycleMajorMatrixEntry F (RegistersCycleMajorEntry F A) (L × L) where
  row e := e.row
  column e := e.col
  bindEntries cell r tables := bindEntries coeff cell r tables.1 tables.2
  computeEvals cell incEvals _ tables := computeEvals coeff incEvals tables.1 tables.2 cell
  column_bind cell _ _ := by cases cell <;> rfl
  row_bind cell _ _ := by cases cell <;> rfl

end RegistersCycleMajorEntry

namespace RegistersAddressMajorEntry

def bindEntries (evenCheckpoint oddCheckpoint r : F) :
    MergeCell (RegistersAddressMajorEntry F) → RegistersAddressMajorEntry F
  | .both even odd => {
    row := even.row
    col := even.col / 2
    raCoeff := even.raCoeff + r * (odd.raCoeff - even.raCoeff)
    waCoeff := even.waCoeff + r * (odd.waCoeff - even.waCoeff)
    valCoeff := even.valCoeff + r * (odd.valCoeff - even.valCoeff)
    prevVal := even.prevVal + r * (odd.prevVal - even.prevVal)
    nextVal := even.nextVal + r * (odd.nextVal - even.nextVal) }
  | .even even => {
    row := even.row
    col := even.col / 2
    raCoeff := (1 - r) * even.raCoeff
    waCoeff := (1 - r) * even.waCoeff
    valCoeff := even.valCoeff + r * (oddCheckpoint - even.valCoeff)
    prevVal := even.prevVal + r * (oddCheckpoint - even.prevVal)
    nextVal := even.nextVal + r * (oddCheckpoint - even.nextVal) }
  | .odd odd => {
    row := odd.row
    col := odd.col / 2
    raCoeff := r * odd.raCoeff
    waCoeff := r * odd.waCoeff
    valCoeff := evenCheckpoint + r * (odd.valCoeff - evenCheckpoint)
    prevVal := evenCheckpoint + r * (odd.prevVal - evenCheckpoint)
    nextVal := evenCheckpoint + r * (odd.nextVal - evenCheckpoint) }

def computeEvals (evenCheckpoint oddCheckpoint incEval eqEval : F) :
    MergeCell (RegistersAddressMajorEntry F) → F × F
  | .both even odd =>
    let raEvals := (even.raCoeff, odd.raCoeff + odd.raCoeff - even.raCoeff)
    let waEvals := (even.waCoeff, odd.waCoeff + odd.waCoeff - even.waCoeff)
    let valEvals := (even.valCoeff, odd.valCoeff + odd.valCoeff - even.valCoeff)
    (eqEval * (raEvals.1 * valEvals.1 + waEvals.1 * (valEvals.1 + incEval)),
      eqEval * (raEvals.2 * valEvals.2 + waEvals.2 * (valEvals.2 + incEval)))
  | .even even =>
    let raEvals := (even.raCoeff, -even.raCoeff)
    let waEvals := (even.waCoeff, -even.waCoeff)
    let valEvals := (even.valCoeff, oddCheckpoint + oddCheckpoint - even.valCoeff)
    (eqEval * (raEvals.1 * valEvals.1 + waEvals.1 * (valEvals.1 + incEval)),
      eqEval * (raEvals.2 * valEvals.2 + waEvals.2 * (valEvals.2 + incEval)))
  | .odd odd =>
    let raEvals := ((0 : F), odd.raCoeff + odd.raCoeff)
    let waEvals := ((0 : F), odd.waCoeff + odd.waCoeff)
    let valEvals := (evenCheckpoint, odd.valCoeff + odd.valCoeff - evenCheckpoint)
    (0, eqEval * (raEvals.2 * valEvals.2 + waEvals.2 * (valEvals.2 + incEval)))

def entry : AddressMajorMatrixEntry F (RegistersAddressMajorEntry F) where
  row e := e.row
  column e := e.col
  prevVal e := e.prevVal
  nextVal e := e.nextVal
  bindEntries cell evenCheckpoint oddCheckpoint r := bindEntries evenCheckpoint oddCheckpoint r cell
  computeEvals cell evenCheckpoint oddCheckpoint incEval eqEval _ :=
    computeEvals evenCheckpoint oddCheckpoint incEval eqEval cell
  row_bind cell _ _ _ := by cases cell <;> rfl
  column_bind cell _ _ _ := by cases cell <;> rfl
  bind_unread _ := ⟨fun _ _ _ _ => rfl, fun _ _ _ _ => rfl⟩
  evals_unread _ _ _ := ⟨fun _ _ _ _ => rfl, fun _ _ _ _ => rfl⟩

end RegistersAddressMajorEntry

end Implementers

/-! ## Two rows of a cycle-major matrix -/

/-- A buffer that has not been written, and its slots once they are. -/
abbrev OutSlots (E : Type) := List (Option E)

namespace ReadWriteMatrixCycleMajor

variable {F E T : Type} [JoltField F] (entry : CycleMajorMatrixEntry F E T)

/-- Rows are merged by column; no value is threaded through them. -/
def keys : MergeKeys E Unit := ⟨entry.column, fun _ => (), fun _ => ()⟩

def bound (r : F) (tables : T) : MergeCell E → Unit → Unit → E := fun cell _ _ => entry.bindEntries cell r tables

def evals (incEvals : F × F) (γ : F) (tables : T) : MergeCell E → Unit → Unit → F × F :=
  fun cell _ _ => entry.computeEvals cell incEvals γ tables

variable (threshold fuel : Nat) (r : F) (tables : T) (evenRow oddRow : List E) (incEvals : F × F) (γ : F)

def seqBindRows (out : OutSlots E) (dryRun : Bool) : Option (Nat × OutSlots E) :=
  seqMergeInto (keys entry) (bound entry r tables) () () evenRow oddRow out dryRun

def bindRows (out : OutSlots E) (dryRun : Bool) : Option (Nat × OutSlots E) :=
  parMergeInto (keys entry) (bound entry r tables) threshold () fuel () () evenRow oddRow out dryRun

def seqProverMessageContribution : F × F :=
  (seqMerge (keys entry) (evals entry incEvals γ tables) () () evenRow oddRow).sum

def proverMessageContribution : Option (F × F) :=
  parMergeSum (keys entry) (evals entry incEvals γ tables) threshold fuel () () evenRow oddRow

end ReadWriteMatrixCycleMajor

/-! ## Two columns of an address-major matrix -/

namespace ReadWriteMatrixAddressMajor

variable {F E : Type} [JoltField F] (entry : AddressMajorMatrixEntry F E)

/-- Columns are merged by row, the checkpoints being the values after the last entries. -/
def keys : MergeKeys E F := ⟨entry.row, entry.prevVal, entry.nextVal⟩

def bound (r : F) : MergeCell E → F → F → E := fun cell evenCheckpoint oddCheckpoint =>
  entry.bindEntries cell evenCheckpoint oddCheckpoint r

/-- With `inc` and `eq` read at the row (`get_bound_coeff`). -/
def evals (inc eq : Nat → F) (γ : F) : MergeCell E → F → F → F × F := fun cell evenCheckpoint oddCheckpoint =>
  entry.computeEvals cell evenCheckpoint oddCheckpoint (inc (cell.place entry.row)) (eq (cell.place entry.row)) γ

variable (threshold fuel : Nat) (r : F) (evenCol oddCol : List E) (evenCheckpoint oddCheckpoint : F)
  (inc eq : Nat → F) (γ : F)

def seqBindCols (out : OutSlots E) (dryRun : Bool) : Option (Nat × OutSlots E) :=
  seqMergeInto (keys entry) (bound entry r) evenCheckpoint oddCheckpoint evenCol oddCol out dryRun

def bindCols (out : OutSlots E) (dryRun : Bool) : Option (Nat × OutSlots E) :=
  parMergeInto (keys entry) (bound entry r) threshold 0 fuel evenCheckpoint oddCheckpoint evenCol oddCol out dryRun

def seqProverMessageContribution : F × F :=
  (seqMerge (keys entry) (evals entry inc eq γ) evenCheckpoint oddCheckpoint evenCol oddCol).sum

def proverMessageContribution : Option (F × F) :=
  parMergeSum (keys entry) (evals entry inc eq γ) threshold fuel evenCheckpoint oddCheckpoint evenCol oddCol

end ReadWriteMatrixAddressMajor

/-! ## A whole matrix -/

section Bind

variable {E : Type} (major : E → Nat)

/-- The rows or columns `2m` and `2m + 1` of a chunk, with `m`. -/
structure AdjacentRuns (E : Type) where
  index : Nat
  even : List E
  odd : List E

/-- A chunk parted at the first entry of an odd row or column (`partition_point`). -/
def splitChunk (chunk : List E) : AdjacentRuns E where
  index := (chunk.head?.map major).getD 0 / 2
  even := chunk.take (chunk.takeWhile fun x => major x % 2 == 0).length
  odd := chunk.drop (chunk.takeWhile fun x => major x % 2 == 0).length

/-- `par_chunk_by` the half of the row or column. -/
def adjacentRuns (entries : List E) : List (AdjacentRuns E) :=
  (entries.splitBy fun x y => major x / 2 == major y / 2).map (splitChunk major)

/-- The buffer, split by the lengths that the dry runs find. -/
def splitBuffer : List Nat → OutSlots E → Option (List (OutSlots E))
  | [], _ => .some []
  | len :: lens, buffer =>
    if len ≤ buffer.length then (splitBuffer lens (buffer.drop len)).map (buffer.take len :: ·) else .none

/-- `bind`: a dry run of each two rows or columns, a buffer of their lengths, and the merges into its parts;
a slot that has not been written cannot be taken for an entry. -/
def bindMatrix (bind : AdjacentRuns E → OutSlots E → Bool → Option (Nat × OutSlots E)) (entries : List E) :
    Option (List E) := do
  let lens ← (adjacentRuns major entries).mapM fun runs => (bind runs [] true).map Prod.fst
  let slices ← splitBuffer lens (List.replicate lens.sum .none)
  let written ← ((adjacentRuns major entries).zip slices).mapM fun p => (bind p.1 p.2 false).map Prod.snd
  written.flatten.mapM id

end Bind

namespace ReadWriteMatrixCycleMajor

variable {F E T : Type} [JoltField F] (entry : CycleMajorMatrixEntry F E T) (threshold fuel : Nat) (r : F) (tables : T)

def bind (entries : List E) : Option (List E) :=
  bindMatrix entry.row (fun runs => bindRows entry threshold fuel r tables runs.even runs.odd) entries

/-- `bind` by the sequential merges. -/
def seqBind (entries : List E) : Option (List E) :=
  bindMatrix entry.row (fun runs => seqBindRows entry r tables runs.even runs.odd) entries

end ReadWriteMatrixCycleMajor

namespace ReadWriteMatrixAddressMajor

variable {F E : Type} [JoltField F] (entry : AddressMajorMatrixEntry F E) (threshold fuel : Nat) (r : F)
  (valInit : Nat → F)

/-- The checkpoint of a column, `val_init` read there; a dry run has zero. -/
def checkpoint (dryRun : Bool) (column : Nat) : F := if dryRun then 0 else valInit column

def bind (entries : List E) : Option (List E) :=
  bindMatrix entry.column (fun runs out dryRun => bindCols entry threshold fuel r runs.even runs.odd
    (checkpoint valInit dryRun (2 * runs.index)) (checkpoint valInit dryRun (2 * runs.index + 1)) out dryRun) entries

/-- `bind` by the sequential merges. -/
def seqBind (entries : List E) : Option (List E) :=
  bindMatrix entry.column (fun runs out dryRun => seqBindCols entry r runs.even runs.odd
    (checkpoint valInit dryRun (2 * runs.index)) (checkpoint valInit dryRun (2 * runs.index + 1)) out dryRun) entries

end ReadWriteMatrixAddressMajor

/-! ## Sorted matrices -/

section Sorted

variable {E : Type} {major minor : E → Nat} {entries : List E}

/-- Sorted by row and column, or column and row, with one entry for a cell. -/
def SortedMatrix (major minor : E → Nat) (entries : List E) : Prop :=
  entries.Pairwise fun x y => major x < major y ∨ major x = major y ∧ minor x < minor y

/-- The runs of a chunk: one row or column each, sorted. -/
structure AdjacentRuns.Sorted (major minor : E → Nat) (runs : AdjacentRuns E) : Prop where
  even : runs.even.Pairwise fun x y => minor x < minor y
  odd : runs.odd.Pairwise fun x y => minor x < minor y

theorem sorted_of_major {xs : List E} {m : Nat} (h : SortedMatrix major minor xs) (hm : ∀ x ∈ xs, major x = m) :
    xs.Pairwise fun x y => minor x < minor y := by
  refine List.Pairwise.imp_of_mem (fun {x y} hx hy hxy => ?_) h
  rcases hxy with hlt | ⟨-, hlt⟩
  · rw [hm x hx, hm y hy] at hlt
    exact absurd hlt (Nat.lt_irrefl m)
  · exact hlt

/-- A chunk has the rows or columns of one half. -/
theorem half_of_mem_chunk {chunk : List E} (h : chunk ∈ entries.splitBy fun x y => major x / 2 == major y / 2) :
    ∃ m, ∀ x ∈ chunk, major x / 2 = m := by
  have hchain := List.isChain_of_mem_splitBy h
  cases chunk with
  | nil => exact ⟨0, fun x hx => absurd hx List.not_mem_nil⟩
  | cons a as =>
    have hpair : (a :: as).Pairwise fun x y => major x / 2 = major y / 2 := by
      rw [← List.isChain_iff_pairwise]
      exact hchain.imp fun x y hxy => by simpa using hxy
    refine ⟨major a / 2, fun x hx => ?_⟩
    rcases List.mem_cons.mp hx with rfl | hx
    · rfl
    · exact ((List.pairwise_cons.mp hpair).1 x hx).symm

theorem sorted_splitChunk {chunk : List E} {m : Nat} (h : SortedMatrix major minor chunk)
    (hm : ∀ x ∈ chunk, major x / 2 = m) : (splitChunk major chunk).Sorted major minor := by
  constructor
  · rw [splitChunk, take_length_takeWhile]
    refine sorted_of_major (m := 2 * m) (h.sublist (List.takeWhile_sublist _)) fun x hx => ?_
    have heven := List.mem_takeWhile_imp (p := fun x => major x % 2 == 0) hx
    have hhalf := hm x ((List.takeWhile_sublist _).subset hx)
    simp only [beq_iff_eq] at heven
    omega
  · rw [splitChunk, drop_length_takeWhile]
    refine sorted_of_major (m := 2 * m + 1) (h.sublist (List.dropWhile_sublist _)) fun x hx => ?_
    -- the even row or column of a chunk is before the odd one
    have hdown : chunk.Pairwise fun x y => (major y % 2 == 0) = true → (major x % 2 == 0) = true :=
      h.imp_of_mem fun hx hy hxy => by
        have hxhalf := hm _ hx
        have hyhalf := hm _ hy
        simp only [beq_iff_eq]
        omega
    have hodd := eq_false_of_mem_dropWhile hdown x hx
    have hhalf := hm x ((List.dropWhile_sublist _).subset hx)
    simp only [beq_eq_false_iff_ne] at hodd
    omega

theorem sorted_adjacentRuns (h : SortedMatrix major minor entries) {runs : AdjacentRuns E}
    (hruns : runs ∈ adjacentRuns major entries) :
    runs.Sorted major minor ∧ runs.even.length + runs.odd.length ≤ entries.length := by
  obtain ⟨chunk, hchunk, rfl⟩ := List.mem_map.mp hruns
  have hsub : chunk.Sublist entries := by
    have hflat := List.sublist_flatten_of_mem hchunk
    rwa [List.flatten_splitBy] at hflat
  obtain ⟨m, hm⟩ := half_of_mem_chunk hchunk
  refine ⟨sorted_splitChunk (h.sublist hsub) hm, ?_⟩
  have hlen := hsub.length_le
  simp only [splitChunk, List.length_take, List.length_drop]
  omega

/-- The slices are of the lengths, and none is out of range. -/
theorem splitBuffer_eq (lens : List Nat) :
    splitBuffer lens (List.replicate lens.sum (.none : Option E)) =
      .some (lens.map fun len => List.replicate len .none) := by
  induction lens with
  | nil => rfl
  | cons len lens ih =>
    rw [splitBuffer, List.length_replicate, List.sum_cons, if_pos (Nat.le_add_right _ _), List.drop_replicate,
      Nat.add_sub_cancel_left, ih, List.take_replicate, Nat.min_eq_left (Nat.le_add_right _ _)]
    rfl

theorem mapM_id_some (xs : List E) : (xs.map Option.some).mapM id = .some xs := by
  rw [List.mapM_map]
  exact (mapM_of_some fun _ _ => rfl).trans (congrArg _ (List.map_id xs))

/-- **Binding a matrix** gives what its rows or columns give, two by two. -/
theorem bindMatrix_eq {bind : AdjacentRuns E → OutSlots E → Bool → Option (Nat × OutSlots E)}
    {bound : AdjacentRuns E → List E} (hdry : ∀ runs ∈ adjacentRuns major entries, ∀ out,
      bind runs out true = .some ((bound runs).length, out))
    (hwritten : ∀ runs ∈ adjacentRuns major entries, ∀ out : OutSlots E, out.length = (bound runs).length →
      bind runs out false = .some ((bound runs).length, (bound runs).map .some)) :
    bindMatrix major bind entries = .some ((adjacentRuns major entries).flatMap bound) := by
  have hlens : ((adjacentRuns major entries).mapM fun runs => (bind runs [] true).map Prod.fst) =
      .some ((adjacentRuns major entries).map fun runs => (bound runs).length) :=
    mapM_of_some fun runs hruns => by rw [hdry runs hruns]; rfl
  have hzip : (adjacentRuns major entries).zip
      (((adjacentRuns major entries).map fun runs => (bound runs).length).map fun len =>
        List.replicate len (.none : Option E)) =
      (adjacentRuns major entries).map fun runs => (runs, List.replicate (bound runs).length (.none : Option E)) := by
    rw [List.map_map]
    exact List.map_prod_left_eq_zip.symm
  have hwrites : (((adjacentRuns major entries).map fun runs =>
      (runs, List.replicate (bound runs).length (.none : Option E))).mapM fun p => (bind p.1 p.2 false).map Prod.snd) =
      .some ((adjacentRuns major entries).map fun runs => (bound runs).map .some) := by
    rw [List.mapM_map]
    exact mapM_of_some fun runs hruns => by
      rw [Function.comp_apply, hwritten runs hruns _ List.length_replicate]
      rfl
  rw [bindMatrix, hlens]
  simp only [Option.bind_eq_bind, Option.bind_some]
  rw [splitBuffer_eq, Option.bind_some, hzip, hwrites, Option.bind_some, List.flatMap, ← mapM_id_some,
    List.map_flatten, List.map_map]
  rfl

end Sorted

/-! ## When the recursive merges agree -/

/-- The two merges of two runs into a buffer do the same: a dry run finds the length of what is written, which
is sorted, with one entry for each place that either run has, and leaves no slot unwritten. -/
structure BindsAgree {E : Type} (key : E → Nat) (seqBind parBind : OutSlots E → Bool → Option (Nat × OutSlots E))
    (even odd bound : List E) : Prop where
  dryRun : ∀ out, parBind out true = .some (bound.length, out)
  seqDryRun : ∀ out, seqBind out true = .some (bound.length, out)
  written : ∀ out, out.length = bound.length → parBind out false = .some (bound.length, bound.map .some)
  seqWritten : ∀ out, out.length = bound.length → seqBind out false = .some (bound.length, bound.map .some)
  sorted : (bound.map key).Pairwise (· < ·)
  places : ∀ k, k ∈ bound.map key ↔ k ∈ even.map key ∨ k ∈ odd.map key

theorem mergesAgree {E C : Type} {κ : MergeKeys E C} {emit : MergeCell E → C → C → E} {threshold fuel : Nat}
    {zero ce co : C} {even odd : List E} (ht : 2 ≤ threshold) (hunread : OwnUnread emit) (hkeeps : KeepsKey κ emit κ.key)
    (heven : SortedRun κ even) (hodd : SortedRun κ odd) (hce : Linked κ ce even) (hco : Linked κ co odd)
    (hfuel : even.length + odd.length < fuel) :
    BindsAgree κ.key (seqMergeInto κ emit ce co even odd) (parMergeInto κ emit threshold zero fuel ce co even odd)
      even odd (seqMerge κ emit ce co even odd) where
  dryRun _ := parMergeInto_dry ht heven hodd hfuel
  seqDryRun _ := rfl
  written _ hout := parMergeInto_eq ht hunread heven hodd hce hco hout hfuel
  seqWritten _ hout := if_pos hout
  sorted := sorted_seqMerge hkeeps heven hodd
  places _ := mem_keys_seqMerge hkeeps

namespace ReadWriteMatrixCycleMajor

variable {F E T : Type} [JoltField F] {entry : CycleMajorMatrixEntry F E T} {threshold fuel : Nat} {r : F}
  {tables : T} {entries : List E}

/-- The rows of a matrix, two by two, and the whole matrix are bound as by the sequential merges, and
the evaluations are theirs. -/
structure Agrees (entry : CycleMajorMatrixEntry F E T) (threshold fuel : Nat) (r : F) (tables : T)
    (entries : List E) : Prop where
  rows : ∀ runs ∈ adjacentRuns entry.row entries, ∃ boundRow,
    BindsAgree entry.column (seqBindRows entry r tables runs.even runs.odd)
      (bindRows entry threshold fuel r tables runs.even runs.odd) runs.even runs.odd boundRow
  evals : ∀ runs ∈ adjacentRuns entry.row entries, ∀ incEvals γ,
    proverMessageContribution entry threshold fuel tables runs.even runs.odd incEvals γ =
      .some (seqProverMessageContribution entry tables runs.even runs.odd incEvals γ)
  whole : ∃ boundEntries, bind entry threshold fuel r tables entries = .some boundEntries ∧
    seqBind entry r tables entries = .some boundEntries

omit [JoltField F] in
theorem linked (c : Unit) (xs : List E) : Linked (keys entry) c xs := by
  induction xs generalizing c with
  | nil => trivial
  | cons x xs ih => exact ⟨rfl, ih _⟩

omit [JoltField F] in
theorem keepsKey : KeepsKey (keys entry) (bound entry r tables) entry.column :=
  ⟨fun _ _ _ _ => entry.column_bind _ _ _, fun _ _ _ => entry.column_bind _ _ _, fun _ _ _ => entry.column_bind _ _ _⟩

theorem agrees (ht : 2 ≤ threshold) (hsorted : SortedMatrix entry.row entry.column entries)
    (hfuel : entries.length < fuel) : Agrees entry threshold fuel r tables entries := by
  have hrows : ∀ runs ∈ adjacentRuns entry.row entries,
      BindsAgree entry.column (seqBindRows entry r tables runs.even runs.odd)
        (bindRows entry threshold fuel r tables runs.even runs.odd) runs.even runs.odd
        (seqMerge (keys entry) (bound entry r tables) () () runs.even runs.odd) := fun runs hruns => by
    obtain ⟨hruns, hlen⟩ := sorted_adjacentRuns hsorted hruns
    exact mergesAgree ht ⟨fun _ _ _ _ => rfl, fun _ _ _ _ => rfl⟩ keepsKey hruns.even hruns.odd (linked ..) (linked ..)
      (by omega)
  have hbind : bind entry threshold fuel r tables entries = .some _ :=
    bindMatrix_eq (fun runs hruns => (hrows runs hruns).dryRun) fun runs hruns => (hrows runs hruns).written
  have hseq : seqBind entry r tables entries = .some _ :=
    bindMatrix_eq (fun runs hruns => (hrows runs hruns).seqDryRun) fun runs hruns => (hrows runs hruns).seqWritten
  refine ⟨fun runs hruns => ⟨_, hrows runs hruns⟩, fun runs hruns incEvals γ => ?_, _, hbind, hseq⟩
  obtain ⟨hruns, hlen⟩ := sorted_adjacentRuns hsorted hruns
  exact parMergeSum_eq ht ⟨fun _ _ _ _ => rfl, fun _ _ _ _ => rfl⟩ hruns.even hruns.odd (linked ..) (linked ..)
    (by omega)

end ReadWriteMatrixCycleMajor

namespace ReadWriteMatrixAddressMajor

variable {F E : Type} [JoltField F] {entry : AddressMajorMatrixEntry F E} {threshold fuel : Nat} {r : F}
  {valInit : Nat → F} {entries : List E}

/-- The columns of a matrix, two by two from their checkpoints, and the whole matrix are bound as by the
sequential merges, and the evaluations are theirs. -/
structure Agrees (entry : AddressMajorMatrixEntry F E) (threshold fuel : Nat) (r : F) (valInit : Nat → F)
    (entries : List E) : Prop where
  cols : ∀ runs ∈ adjacentRuns entry.column entries, ∃ boundCol, BindsAgree entry.row
    (seqBindCols entry r runs.even runs.odd (valInit (2 * runs.index)) (valInit (2 * runs.index + 1)))
    (bindCols entry threshold fuel r runs.even runs.odd (valInit (2 * runs.index)) (valInit (2 * runs.index + 1)))
    runs.even runs.odd boundCol
  evals : ∀ runs ∈ adjacentRuns entry.column entries, ∀ inc eq γ,
    proverMessageContribution entry threshold fuel runs.even runs.odd (valInit (2 * runs.index))
        (valInit (2 * runs.index + 1)) inc eq γ =
      .some (seqProverMessageContribution entry runs.even runs.odd (valInit (2 * runs.index))
        (valInit (2 * runs.index + 1)) inc eq γ)
  whole : ∃ boundEntries, bind entry threshold fuel r valInit entries = .some boundEntries ∧
    seqBind entry r valInit entries = .some boundEntries

/-- In each column the first entry follows the initial value, and each other one the entry before it. -/
def LinkedColumns (entry : AddressMajorMatrixEntry F E) (valInit : Nat → F) (entries : List E) : Prop :=
  ∀ runs ∈ adjacentRuns entry.column entries, Linked (keys entry) (valInit (2 * runs.index)) runs.even ∧
    Linked (keys entry) (valInit (2 * runs.index + 1)) runs.odd

/-- Two columns bound one entry after the other. -/
def seqBound (entry : AddressMajorMatrixEntry F E) (r : F) (valInit : Nat → F) (runs : AdjacentRuns E) : List E :=
  seqMerge (keys entry) (bound entry r) (valInit (2 * runs.index)) (valInit (2 * runs.index + 1)) runs.even runs.odd

omit [JoltField F] in
theorem keepsKey : KeepsKey (keys entry) (bound entry r) entry.row :=
  ⟨fun _ _ _ _ => entry.row_bind _ _ _ _, fun _ _ _ => entry.row_bind _ _ _ _, fun _ _ _ => entry.row_bind _ _ _ _⟩

theorem agrees (ht : 2 ≤ threshold) (hsorted : SortedMatrix entry.column entry.row entries)
    (hlinked : LinkedColumns entry valInit entries) (hfuel : entries.length < fuel) :
    Agrees entry threshold fuel r valInit entries := by
  have hcols : ∀ runs ∈ adjacentRuns entry.column entries, BindsAgree entry.row
      (seqBindCols entry r runs.even runs.odd (valInit (2 * runs.index)) (valInit (2 * runs.index + 1)))
      (bindCols entry threshold fuel r runs.even runs.odd (valInit (2 * runs.index)) (valInit (2 * runs.index + 1)))
      runs.even runs.odd (seqBound entry r valInit runs) := fun runs hruns => by
    obtain ⟨hce, hco⟩ := hlinked runs hruns
    obtain ⟨hruns, hlen⟩ := sorted_adjacentRuns hsorted hruns
    exact mergesAgree ht (entry.bind_unread r) keepsKey hruns.even hruns.odd hce hco (by omega)
  -- a dry run has zero for the checkpoints, and counts the same
  have hzero (runs : AdjacentRuns E) : (seqMerge (keys entry) (bound entry r) 0 0 runs.even runs.odd).length =
      (seqBound entry r valInit runs).length := length_seqMerge _ _
  have hbind : bind entry threshold fuel r valInit entries =
      .some ((adjacentRuns entry.column entries).flatMap (seqBound entry r valInit)) := by
    refine bindMatrix_eq (fun runs hruns out => ?_) fun runs hruns => (hcols runs hruns).written
    obtain ⟨hruns, hlen⟩ := sorted_adjacentRuns hsorted hruns
    rw [← hzero]
    exact parMergeInto_dry ht hruns.even hruns.odd (by omega)
  have hseq : seqBind entry r valInit entries =
      .some ((adjacentRuns entry.column entries).flatMap (seqBound entry r valInit)) := by
    refine bindMatrix_eq (fun runs hruns out => ?_) fun runs hruns => (hcols runs hruns).seqWritten
    rw [← hzero]
    rfl
  refine ⟨fun runs hruns => ⟨_, hcols runs hruns⟩, fun runs hruns inc eq γ => ?_, _, hbind, hseq⟩
  obtain ⟨hce, hco⟩ := hlinked runs hruns
  obtain ⟨hruns, hlen⟩ := sorted_adjacentRuns hsorted hruns
  exact parMergeSum_eq ht (entry.evals_unread inc eq γ) hruns.even hruns.odd hce hco (by omega)

end ReadWriteMatrixAddressMajor

/-- **Divide and conquer binds as the sequential merges do**, from a threshold of two entries on, and where
the values of the columns link up. -/
theorem readWriteMatrix_agrees {F E A T : Type} [JoltField F] (cycle : CycleMajorMatrixEntry F E T)
    (address : AddressMajorMatrixEntry F A) {threshold fuel : Nat} (ht : 2 ≤ threshold) {rows : List E} {cols : List A}
    {valInit : Nat → F} (hrows : SortedMatrix cycle.row cycle.column rows)
    (hcols : SortedMatrix address.column address.row cols)
    (hlinked : ReadWriteMatrixAddressMajor.LinkedColumns address valInit cols)
    (hfuel : rows.length + cols.length < fuel) (r : F) (tables : T) :
    ReadWriteMatrixCycleMajor.Agrees cycle threshold fuel r tables rows ∧
      ReadWriteMatrixAddressMajor.Agrees address threshold fuel r valInit cols :=
  ⟨ReadWriteMatrixCycleMajor.agrees ht hrows (by omega),
    ReadWriteMatrixAddressMajor.agrees ht hcols hlinked (by omega)⟩

/-- Three entries in two rows, and three in two columns, merged from a threshold of two. -/
theorem readWriteMatrix_agrees_three :
    ReadWriteMatrixCycleMajor.Agrees RamCycleMajorEntry.entry 2 9 (7 : Fr) ()
        [⟨0, 0, 0, 3, 0, 1⟩, ⟨0, 2, 0, 0, 0, 1⟩, ⟨1, 1, 4, 4, 4, 1⟩] ∧
      ReadWriteMatrixAddressMajor.Agrees RamAddressMajorEntry.entry 2 9 (7 : Fr) (fun _ => 0)
        [⟨0, 0, 0, 3, 0, 1⟩, ⟨2, 0, 3, 4, 3, 1⟩, ⟨1, 1, 0, 5, 0, 1⟩] := by
  refine readWriteMatrix_agrees RamCycleMajorEntry.entry RamAddressMajorEntry.entry le_rfl ?_ ?_ ?_ (by decide) 7 ()
  · simp [SortedMatrix, RamCycleMajorEntry.entry]
  · simp [SortedMatrix, RamAddressMajorEntry.entry]
  · intro runs hruns
    have hone : adjacentRuns (RamAddressMajorEntry.entry (F := Fr)).column
        [⟨0, 0, 0, 3, 0, 1⟩, ⟨2, 0, 3, 4, 3, 1⟩, ⟨1, 1, 0, 5, 0, 1⟩] =
        [⟨0, [⟨0, 0, 0, 3, 0, 1⟩, ⟨2, 0, 3, 4, 3, 1⟩], [⟨1, 1, 0, 5, 0, 1⟩]⟩] := rfl
    rw [hone, List.mem_singleton] at hruns
    subst hruns
    exact ⟨⟨rfl, rfl, trivial⟩, rfl, trivial⟩

/-- At a threshold of one, two entries in one column are split for ever; at two, a column whose first entry does
not follow its initial value has another checkpoint after the split than before it. -/
theorem readWriteMatrix_not_agrees :
    (¬ ∀ (threshold : Nat) (rows : List (RamCycleMajorEntry Fr)),
        SortedMatrix RamCycleMajorEntry.entry.row RamCycleMajorEntry.entry.column rows →
        ∃ fuel, ReadWriteMatrixCycleMajor.Agrees RamCycleMajorEntry.entry threshold fuel 7 () rows) ∧
      ¬ ∀ cols : List (RamAddressMajorEntry Fr),
        SortedMatrix RamAddressMajorEntry.entry.column RamAddressMajorEntry.entry.row cols →
        ∃ fuel, ReadWriteMatrixAddressMajor.Agrees RamAddressMajorEntry.entry 2 fuel 7 (fun _ => 0) cols := by
  constructor
  · intro hall
    obtain ⟨fuel, hagrees⟩ := hall 1 [⟨0, 0, 0, 0, 0, 1⟩, ⟨1, 0, 0, 0, 0, 1⟩] (by
      simp [SortedMatrix, RamCycleMajorEntry.entry])
    obtain ⟨boundRow, hrows⟩ := hagrees.rows ⟨0, [⟨0, 0, 0, 0, 0, 1⟩], [⟨1, 0, 0, 0, 0, 1⟩]⟩
      (List.mem_singleton.mpr rfl)
    have hloops : ReadWriteMatrixCycleMajor.bindRows (RamCycleMajorEntry.entry (F := Fr)) 1 fuel 7 ()
        [⟨0, 0, 0, 0, 0, 1⟩] [⟨1, 0, 0, 0, 0, 1⟩] [] true = .none := by
      apply parMergeInto_loops le_rfl
      rfl
    have hdry := hrows.dryRun []
    rw [hloops] at hdry
    cases hdry
  · intro hall
    obtain ⟨fuel, hagrees⟩ := hall [⟨0, 0, 0, 0, 0, 1⟩, ⟨1, 0, 0, 0, 0, 1⟩, ⟨2, 1, 5, 5, 0, 0⟩] (by
      simp [SortedMatrix, RamAddressMajorEntry.entry])
    have hevals := hagrees.evals ⟨0, [⟨0, 0, 0, 0, 0, 1⟩, ⟨1, 0, 0, 0, 0, 1⟩], [⟨2, 1, 5, 5, 0, 0⟩]⟩
      (List.mem_singleton.mpr rfl) (fun _ => 0) (fun _ => 1) 0
    have hten : (-5 : Fr) + -5 ≠ 0 := by decide
    rcases fuel with _ | _ | fuel
    · cases hevals
    · simp [ReadWriteMatrixAddressMajor.proverMessageContribution, parMergeSum, pivots] at hevals
    · simp [ReadWriteMatrixAddressMajor.proverMessageContribution,
        ReadWriteMatrixAddressMajor.seqProverMessageContribution, parMergeSum, pivots, partitionPoint, checkpointAt,
        seqMerge, ReadWriteMatrixAddressMajor.keys, ReadWriteMatrixAddressMajor.evals, RamAddressMajorEntry.entry,
        RamAddressMajorEntry.computeEvals] at hevals
      exact hten hevals

end LightningJolt
