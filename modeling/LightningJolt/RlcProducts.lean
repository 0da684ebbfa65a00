/-
The vector-matrix products of the joint polynomial: the streamed passes over a
materialized and over a lazy trace in the cycle-major layout, and the product
of the polynomials materialized for the address-major layout. None of them
builds the matrix. On the weights of the rows the lazy pass gives its product,
and the two others that of the trace as it is given, without the no-ops that
pad it.
-/
import LightningJolt.JointClaim

namespace LightningJolt

open Finset

/-- `address_cycle_to_index`. -/
def DoryLayout.addressCycleToIndex (layout : DoryLayout) (address cycle K T : Nat) : Nat :=
  match layout with
  | .CycleMajor => address * T + cycle
  | .AddressMajor => cycle * K + address

section Products

variable {F C : Type} [JoltField F] [Challenge C F] [DecidableEq F] {o : JointOpening C}

namespace JointWitness

variable (w : JointWitness F o) (gamma : F) (left : List F)

/-- `vmp_advice_contribution`, in one column. -/
def vmpAdviceContribution (col : Nat) : F :=
  (o.advice.map fun kind =>
    if col < 2 ^ o.adviceCols kind then
      ∑ row ∈ range (min (2 ^ o.adviceRows kind) left.length),
        if left.getD row 0 = 0 then 0
        else left.getD row 0 * o.coeff gamma kind.polynomial *
          w.advicePoly kind (row * 2 ^ o.adviceCols kind + col)
    else 0).sum

/-! ### The streamed passes -/

variable (o) in
/-- The row factors of `compute_row_factors_and_eq_k`. -/
def rowFactor (rowsPerK row : Nat) : F := ∑ k ∈ range (2 ^ o.logK), left.getD (k * rowsPerK + row) 0

/-- Its address factors. -/
def eqK (rowsPerK k : Nat) : F := ∑ row ∈ range rowsPerK, left.getD (k * rowsPerK + row) 0

variable (o) in
/-- `build_folded_tables`. -/
def foldedTable (rowsPerK : Nat) (poly : CommittedPolynomial) (k : Nat) : F :=
  if o.coeff gamma poly = 0 then 0 else o.coeff gamma poly * eqK left rowsPerK k

variable (o) in
/-- `process_cycle`. -/
def processCycle (rowsPerK row : Nat) (c : CycleWitness) : F :=
  left.getD row 0 * o.coeff gamma .RdInc * ((c.inc .RdInc : Int) : F) +
      left.getD row 0 * o.coeff gamma .RamInc * ((c.inc .RamInc : Int) : F) +
    rowFactor o left rowsPerK row *
      (o.params.polynomialTypes.map fun poly => match o.params.chunkIndex c poly with
        | .some k => foldedTable o gamma left rowsPerK poly k
        | .none => 0).sum

/-- `materialized_vector_matrix_product`: threads of no rows panic, and what the threads accumulate
is added up in any order. A row ends with the trace that is given: the missing cycles add nothing. -/
def materializedVectorMatrixProduct : Option (List F) :=
  let numRows := 2 ^ o.logT / 2 ^ o.sigma
  if numRows = 0 then .none
  else .some ((List.range (2 ^ o.sigma)).map fun col =>
    (∑ row ∈ range numRows, match w.trace[row * 2 ^ o.sigma + col]? with
      | .some c => processCycle o gamma left numRows row c
      | .none => 0) + w.vmpAdviceContribution gamma left col)

/-- `lazy_vector_matrix_product`: no-ops pad the trace, and a chunk without a row factor panics. -/
def lazyVectorMatrixProduct : Option (List F) :=
  let numRows := 2 ^ o.logT / 2 ^ o.sigma
  let chunks := OneHotParams.chunks (2 ^ o.sigma) w.padded
  if numRows < chunks.length then .none
  else .some ((List.range (2 ^ o.sigma)).map fun col =>
    (∑ row ∈ range chunks.length, match (chunks.getD row [])[col]? with
      | .some c => processCycle o gamma left numRows row c
      | .none => 0) + w.vmpAdviceContribution gamma left col)

/-! ### The materialized polynomials -/

variable (o) in
/-- `k_from_matrix_shape`. -/
def kFromMatrixShape : Nat := 2 ^ o.nu * 2 ^ o.sigma / 2 ^ o.logT

/-- The dense part of `materialize_from_context`: zero behind the trace that is given. -/
def denseRlc (c : Nat) : F :=
  match w.trace[c]? with
  | .some cycle =>
    o.coeff gamma .RdInc * ((cycle.inc .RdInc : Int) : F) + o.coeff gamma .RamInc * ((cycle.inc .RamInc : Int) : F)
  | .none => 0

/-- The indices of a one-hot polynomial of `generate_witness`: one for each cycle that is given. -/
def nonzeroIndices (poly : CommittedPolynomial) : List (Option Nat) :=
  w.trace.map (o.params.chunkIndex · poly)

/-- `OneHotPolynomial::vector_matrix_product`, in one column and off the fast path of the cycle-major layout. -/
def oneHotProduct (poly : CommittedPolynomial) (col : Nat) : F :=
  let t := (w.nonzeroIndices poly).length
  ∑ c ∈ range t, match (w.nonzeroIndices poly).getD c .none with
    | .some k =>
      let index := o.layout.addressCycleToIndex k c (2 ^ o.logK) t
      if index / 2 ^ o.sigma < left.length ∧ index % 2 ^ o.sigma = col then
        o.coeff gamma poly * left.getD (index / 2 ^ o.sigma) 0
      else 0
    | .none => 0

/-- `address_major_vector_matrix_product`: no cycle in a row is a division by zero. -/
def addressMajorVectorMatrixProduct : Option (List F) :=
  let cyclesPerRow := 2 ^ o.sigma / kFromMatrixShape o
  if cyclesPerRow = 0 then .none
  else .some ((List.range (2 ^ o.sigma)).map fun col =>
    let step := 2 ^ o.sigma / cyclesPerRow
    (if col % step = 0 then
      ∑ i ∈ range left.length, if col / step + i * cyclesPerRow < 2 ^ o.logT then
        w.denseRlc gamma (col / step + i * cyclesPerRow) * left.getD i 0 else 0
    else 0) + (o.params.polynomialTypes.map fun poly => w.oneHotProduct gamma left poly col).sum +
      w.vmpAdviceContribution gamma left col)

/-- The product with the matrix itself. -/
def matrixProduct : List F :=
  (List.range (2 ^ o.sigma)).map fun col =>
    ∑ row ∈ range (2 ^ o.nu), left.getD row 0 * w.cell gamma row col

variable (o) in
/-- The weights of the rows at the unified point. -/
def leftVec : List F := eqTable (intoPoint o.rowPoint)

/-! ## Columns -/

variable (o) in
/-- The trace polynomials at an address of one cycle. -/
def cycleCell (c : CycleWitness) (address : Nat) : F :=
  (if address = 0 then
    o.coeff gamma .RamInc * ((c.inc .RamInc : Int) : F) + o.coeff gamma .RdInc * ((c.inc .RdInc : Int) : F)
  else 0) + (o.params.polynomialTypes.map fun poly =>
    o.coeff gamma poly * if o.params.chunkIndex c poly = .some address then 1 else 0).sum

variable (o) in
/-- The cells of a list of cycles: zero behind its end. -/
def listCell (cycles : List CycleWitness) (address cycle : Nat) : F :=
  match cycles[cycle]? with
  | .some c => cycleCell o gamma c address
  | .none => 0

variable (o) in
/-- A column of cells, given by address and cycle, against the weights of the rows. -/
def column (cells : Nat → Nat → F) (col : Nat) : F :=
  ∑ row ∈ range (2 ^ o.nu), left.getD row 0 *
    cells (o.layout.indexToAddressCycle (row * 2 ^ o.sigma + col) (2 ^ o.logK) (2 ^ o.logT)).1
      (o.layout.indexToAddressCycle (row * 2 ^ o.sigma + col) (2 ^ o.logK) (2 ^ o.logT)).2

/-- The product with the matrix of the trace as it is given, nothing in the place of the missing cycles. -/
def givenProduct : List F :=
  (List.range (2 ^ o.sigma)).map fun col =>
    column o left (listCell o gamma w.trace) col + w.vmpAdviceContribution gamma left col

variable (o) in
/-- The coefficients of the one-hot polynomials that a no-op puts at address zero: those of the
lookups and of the bytecode. -/
def noOpCoeff : F :=
  (o.params.polynomialTypes.map fun poly =>
    o.coeff gamma poly * if o.params.chunkIndex .noOp poly = .some 0 then 1 else 0).sum

variable (o) in
/-- The weights of a column in the rows where a missing cycle is at address zero. -/
def missingWeight (col : Nat) : F :=
  column o left (fun address cycle => if address = 0 ∧ o.traceLen ≤ cycle then 1 else 0) col

variable (o) in
/-- The no-ops of the missing cycles add nothing to any column. -/
def MissingVanish : Prop := noOpCoeff o gamma = 0 ∨ ∀ col < 2 ^ o.sigma, missingWeight o (leftVec o : List F) col = 0

/-! ## The advice -/

omit [DecidableEq F] in
@[simp] theorem length_leftVec : (leftVec o : List F).length = 2 ^ o.nu := by
  rw [leftVec, length_eqTable, length_intoPoint, o.length_rowPoint]

omit [DecidableEq F] in
theorem getD_leftVec (row : Nat) : (leftVec o : List F).getD row 0 = eqAt (intoPoint o.rowPoint) row := rfl

omit [Challenge C F] in
theorem sum_adviceCell (hleft : left.length = 2 ^ o.nu) (col : Nat) :
    ∑ row ∈ range (2 ^ o.nu), left.getD row 0 * w.adviceCell gamma row col =
      w.vmpAdviceContribution gamma left col := by
  have hsum := sum_sum_list (range (2 ^ o.nu)) {0} o.advice (fun row _ => left.getD row 0)
    fun kind row _ => if row < 2 ^ o.adviceRows kind ∧ col < 2 ^ o.adviceCols kind then
      o.coeff gamma kind.polynomial * w.advicePoly kind (row * 2 ^ o.adviceCols kind + col) else 0
  simp only [sum_singleton] at hsum
  rw [vmpAdviceContribution]
  refine hsum.trans ?_
  congr 1
  refine List.map_congr_left fun kind _ => ?_
  have hle : 2 ^ o.adviceRows kind ≤ 2 ^ o.nu := Nat.pow_le_pow_right (by omega) (o.adviceRows_le kind)
  by_cases hcol : col < 2 ^ o.adviceCols kind
  · rw [if_pos hcol, hleft, Nat.min_eq_left hle, ← sum_range_block hle]
    refine sum_congr rfl fun row _ => ?_
    by_cases hrow : row < 2 ^ o.adviceRows kind
    · rw [if_pos ⟨hrow, hcol⟩, if_pos hrow]
      by_cases hzero : left.getD row 0 = 0
      · rw [if_pos hzero, hzero, zero_mul]
      · rw [if_neg hzero]
        ring
    · rw [if_neg fun h => hrow h.1, if_neg hrow, mul_zero]
  · rw [if_neg hcol]
    exact sum_eq_zero fun row _ => by rw [if_neg fun h => hcol h.2, mul_zero]

omit [Challenge C F] in
theorem matrixProduct_eq (hleft : left.length = 2 ^ o.nu) :
    w.matrixProduct gamma left = (List.range (2 ^ o.sigma)).map fun col =>
      column o left (w.traceCell gamma) col + w.vmpAdviceContribution gamma left col := by
  refine List.map_congr_left fun col _ => ?_
  simp only [cell, mul_add, sum_add_distrib]
  rw [w.sum_adviceCell gamma left hleft, column]

omit [JoltField F] [Challenge C F] [DecidableEq F] in
theorem length_padded : w.padded.length = 2 ^ o.logT := by
  have hle := o.traceLen_le
  rw [padded, List.length_append, List.length_replicate, w.length_trace]
  omega

omit [JoltField F] [Challenge C F] [DecidableEq F] in
theorem getElem?_padded {c : Nat} (h : c < 2 ^ o.logT) : w.padded[c]? = .some (w.cycle c) := by
  rw [← w.length_padded] at h
  rw [cycle, List.getD_eq_getElem?_getD, List.getElem?_eq_getElem h]
  rfl

omit [JoltField F] [Challenge C F] [DecidableEq F] in
theorem cycle_of_lt {c : Nat} (h : c < o.traceLen) : w.trace[c]? = .some (w.cycle c) := by
  have hlt : c < w.trace.length := by rwa [w.length_trace]
  rw [cycle, padded, List.getD_eq_getElem?_getD, List.getElem?_append_left hlt, List.getElem?_eq_getElem hlt]
  rfl

omit [JoltField F] [Challenge C F] [DecidableEq F] in
theorem cycle_of_le {c : Nat} (h : o.traceLen ≤ c) : w.cycle c = .noOp := by
  have hle : w.trace.length ≤ c := by rwa [w.length_trace]
  rw [cycle, padded, List.getD_eq_getElem?_getD, List.getElem?_append_right hle, List.getElem?_replicate]
  split_ifs
  · rfl
  · rfl

/-! ## The missing cycles -/

omit [Challenge C F] [DecidableEq F] in
variable (o) in
/-- The chunks of a no-op are zero, and an address in memory it has none. -/
theorem cycleCell_noOp (address : Nat) :
    cycleCell o gamma .noOp address = if address = 0 then noOpCoeff o gamma else 0 := by
  have hzero (poly : CommittedPolynomial) (k : Nat) (h : o.params.chunkIndex .noOp poly = .some k) : k = 0 := by
    have hchunk (d i : Nat) : o.params.chunk d i 0 = 0 := by
      rw [OneHotParams.chunk, Nat.zero_shiftRight, Nat.zero_and, Nat.zero_mod]
    cases poly with
    | InstructionRa i => exact (Option.some.inj h).symm.trans (hchunk _ _)
    | BytecodeRa i => exact (Option.some.inj h).symm.trans (hchunk _ _)
    | RamRa i | RdInc | RamInc | TrustedAdvice | UntrustedAdvice => cases h
  have hinc (poly : CommittedPolynomial) : CycleWitness.noOp.inc poly = 0 := by cases poly <;> rfl
  rw [cycleCell, hinc, hinc, Int.cast_zero, mul_zero, mul_zero, add_zero, ite_self, zero_add]
  by_cases haddress : address = 0
  · rw [if_pos haddress, haddress, noOpCoeff]
  · rw [if_neg haddress]
    refine List.sum_eq_zero fun x hx => ?_
    obtain ⟨poly, -, rfl⟩ := List.mem_map.mp hx
    rw [if_neg fun h => haddress (hzero poly address h), mul_zero]

omit [Challenge C F] [DecidableEq F] in
/-- The cells of the padded trace are those of the given one and the no-ops of the missing cycles. -/
theorem traceCell_eq (address cycle : Nat) :
    w.traceCell gamma address cycle = listCell o gamma w.trace address cycle +
      noOpCoeff o gamma * if address = 0 ∧ o.traceLen ≤ cycle then 1 else 0 := by
  have hcell : w.traceCell gamma address cycle = cycleCell o gamma (w.cycle cycle) address := rfl
  rw [hcell, listCell]
  by_cases hlt : cycle < o.traceLen
  · rw [w.cycle_of_lt hlt, if_neg fun h => Nat.not_lt.mpr h.2 hlt, mul_zero, add_zero]
  · have hle := Nat.not_lt.mp hlt
    rw [w.cycle_of_le hle, cycleCell_noOp, List.getElem?_eq_none (by rwa [w.length_trace]), zero_add]
    by_cases haddress : address = 0
    · rw [if_pos haddress, if_pos ⟨haddress, hle⟩, mul_one]
    · rw [if_neg haddress, if_neg fun h => haddress h.1, mul_zero]

omit [Challenge C F] [DecidableEq F] in
theorem column_traceCell (col : Nat) :
    column o left (w.traceCell gamma) col =
      column o left (listCell o gamma w.trace) col + noOpCoeff o gamma * missingWeight o left col := by
  simp only [missingWeight, column, traceCell_eq, mul_add, sum_add_distrib, mul_sum]
  congr 1
  refine sum_congr rfl fun row _ => ?_
  ring

/-- **The product of the given trace** is that of the matrix exactly when the missing no-ops vanish. -/
theorem givenProduct_eq_iff :
    w.givenProduct gamma (leftVec o) = w.matrixProduct gamma (leftVec o) ↔ MissingVanish o gamma := by
  have hcolumn (col : Nat) : column o (leftVec o) (listCell o gamma w.trace) col +
        w.vmpAdviceContribution gamma (leftVec o) col =
      column o (leftVec o) (w.traceCell gamma) col + w.vmpAdviceContribution gamma (leftVec o) col ↔
        noOpCoeff o gamma = 0 ∨ missingWeight o (leftVec o : List F) col = 0 := by
    rw [add_left_inj, column_traceCell, left_eq_add, mul_eq_zero]
  rw [w.matrixProduct_eq gamma _ length_leftVec, givenProduct, List.map_inj_left, MissingVanish]
  simp only [List.mem_range, hcolumn]
  by_cases hcoeff : noOpCoeff o gamma = 0
  · exact ⟨fun _ => .inl hcoeff, fun _ _ _ => .inl hcoeff⟩
  · simp only [hcoeff, false_or]

/-! ## The streamed passes -/

omit [Challenge C F] [DecidableEq F] in
variable (o) in
/-- A one-hot polynomial picks one address. -/
theorem sum_chunkIndex (f : Nat → F) (poly : CommittedPolynomial) (c : CycleWitness) :
    ∑ k ∈ range (2 ^ o.logK), f k * (if o.params.chunkIndex c poly = .some k then 1 else 0) =
      match o.params.chunkIndex c poly with
      | .some k => f k
      | .none => 0 := by
  cases hk : o.params.chunkIndex c poly with
  | none =>
    refine sum_eq_zero fun k _ => ?_
    rw [if_neg nofun, mul_zero]
  | some k =>
    have hmem : k ∈ range (2 ^ o.logK) := mem_range.mpr (o.params.chunkIndex_lt hk)
    rw [sum_eq_single_of_mem k hmem fun k' _ hne => ?_]
    · rw [if_pos rfl, mul_one]
    · rw [if_neg fun h => hne (Option.some.inj h).symm, mul_zero]

/-- The cycle coordinates of the rows in the cycle-major layout. -/
def rowCycle (o : JointOpening C) : List C := o.rCycle.take (o.nu - o.logK)

omit [Challenge C F] [DecidableEq F] in
theorem rowPoint_cycleMajor (hlayout : o.layout = .CycleMajor) (hle : o.logK ≤ o.nu) :
    o.rowPoint = o.rAddress ++ rowCycle o := by
  have happend := o.rowPoint_append_colPoint
  rw [o.reverse_coordinates, hlayout] at happend
  have htake := congrArg (List.take o.nu) happend
  rw [List.take_left' o.length_rowPoint] at htake
  rw [htake, List.take_append, List.take_of_length_le (by rwa [o.length_rAddress]), o.length_rAddress]
  rfl

theorem length_rowCycle (o : JointOpening C) : (rowCycle o).length = o.nu - o.logK := by
  have hsum := o.nu_add_sigma
  rw [rowCycle, List.length_take, o.length_rCycle]
  omega

omit [DecidableEq F] in
/-- On the weights of the rows the factors are the weights of the two parts. -/
theorem getD_leftVec_split (hlayout : o.layout = .CycleMajor) (hle : o.logK ≤ o.nu) (k : Nat) {row : Nat}
    (hrow : row < 2 ^ (o.nu - o.logK)) :
    (leftVec o : List F).getD (k * 2 ^ (o.nu - o.logK) + row) 0 =
      eqAt (intoPoint o.rAddress) k * eqAt (intoPoint (rowCycle o)) row := by
  rw [getD_leftVec, rowPoint_cycleMajor hlayout hle, ← length_rowCycle o]
  exact eqAt_split _ _ k (by rwa [length_rowCycle])

omit [DecidableEq F] in
theorem rowFactor_leftVec (hlayout : o.layout = .CycleMajor) (hle : o.logK ≤ o.nu) {row : Nat}
    (hrow : row < 2 ^ (o.nu - o.logK)) :
    rowFactor o (leftVec o : List F) (2 ^ (o.nu - o.logK)) row = eqAt (intoPoint (rowCycle o)) row := by
  have hsum := sum_eqAt (intoPoint o.rAddress : List F)
  rw [length_intoPoint, o.length_rAddress] at hsum
  rw [rowFactor, sum_congr rfl fun k _ => getD_leftVec_split hlayout hle k hrow, ← sum_mul, hsum, one_mul]

omit [DecidableEq F] in
theorem eqK_leftVec (hlayout : o.layout = .CycleMajor) (hle : o.logK ≤ o.nu) (k : Nat) :
    eqK (leftVec o : List F) (2 ^ (o.nu - o.logK)) k = eqAt (intoPoint o.rAddress) k := by
  have hsum := sum_eqAt (intoPoint (rowCycle o) : List F)
  rw [length_intoPoint, length_rowCycle] at hsum
  rw [eqK, sum_congr rfl fun row hrow => getD_leftVec_split hlayout hle k (mem_range.mp hrow), ← mul_sum,
    hsum, mul_one]

theorem foldedTable_leftVec (hlayout : o.layout = .CycleMajor) (hle : o.logK ≤ o.nu)
    (poly : CommittedPolynomial) (k : Nat) :
    foldedTable o gamma (leftVec o) (2 ^ (o.nu - o.logK)) poly k =
      o.coeff gamma poly * eqAt (intoPoint o.rAddress) k := by
  rw [foldedTable, eqK_leftVec hlayout hle]
  split_ifs with hzero
  · rw [hzero, zero_mul]
  · rfl

/-- What a cycle adds to its column is its column of the matrix against the rows of all addresses. -/
theorem processCycle_eq (hlayout : o.layout = .CycleMajor) (hle : o.logK ≤ o.nu) {row : Nat}
    (hrow : row < 2 ^ (o.nu - o.logK)) (c : CycleWitness) :
    processCycle o gamma (leftVec o) (2 ^ (o.nu - o.logK)) row c =
      ∑ k ∈ range (2 ^ o.logK),
        (leftVec o : List F).getD (k * 2 ^ (o.nu - o.logK) + row) 0 * cycleCell o gamma c k := by
  have hpos : 0 ∈ range (2 ^ o.logK) := mem_range.mpr (Nat.two_pow_pos _)
  simp only [cycleCell, mul_add, sum_add_distrib]
  rw [processCycle]
  congr 1
  · rw [sum_eq_single_of_mem 0 hpos fun k _ hk => by rw [if_neg hk, mul_zero], if_pos rfl, Nat.zero_mul,
      Nat.zero_add]
    ring
  · have hlist := sum_sum_list (range (2 ^ o.logK)) {0} o.params.polynomialTypes
      (fun k _ => (leftVec o : List F).getD (k * 2 ^ (o.nu - o.logK) + row) 0)
      fun poly k _ => o.coeff gamma poly * if o.params.chunkIndex c poly = .some k then 1 else 0
    simp only [sum_singleton] at hlist
    rw [hlist, rowFactor_leftVec hlayout hle hrow, ← List.sum_map_mul_left]
    congr 1
    refine List.map_congr_left fun poly _ => ?_
    have hk (k : Nat) : (leftVec o : List F).getD (k * 2 ^ (o.nu - o.logK) + row) 0 *
        (o.coeff gamma poly * if o.params.chunkIndex c poly = .some k then 1 else 0) =
          eqAt (intoPoint (rowCycle o)) row *
            (foldedTable o gamma (leftVec o) (2 ^ (o.nu - o.logK)) poly k *
              if o.params.chunkIndex c poly = .some k then 1 else 0) := by
      rw [getD_leftVec_split hlayout hle k hrow, foldedTable_leftVec gamma hlayout hle]
      ring
    rw [sum_congr rfl fun k _ => hk k, ← mul_sum, sum_chunkIndex]

theorem numRows_eq (o : JointOpening C) (h : o.sigma ≤ o.logT) :
    2 ^ o.logT / 2 ^ o.sigma = 2 ^ (o.nu - o.logK) := by
  have hsum := o.nu_add_sigma
  rw [Nat.pow_div h (by omega)]
  congr 1
  omega

/-- One column of a list of cycles in the cycle-major layout. -/
theorem cycleMajor_column (hlayout : o.layout = .CycleMajor) (h : o.sigma ≤ o.logT)
    (cycles : List CycleWitness) {col : Nat} (hcol : col < 2 ^ o.sigma) :
    column o (leftVec o) (listCell o gamma cycles) col =
      ∑ row ∈ range (2 ^ o.logT / 2 ^ o.sigma), match cycles[row * 2 ^ o.sigma + col]? with
        | .some c => processCycle o gamma (leftVec o) (2 ^ o.logT / 2 ^ o.sigma) row c
        | .none => 0 := by
  have hsum := o.nu_add_sigma
  have hle : o.logK ≤ o.nu := by omega
  have hT : 2 ^ o.logT = 2 ^ (o.nu - o.logK) * 2 ^ o.sigma := by
    rw [← pow_add]
    congr 1
    omega
  have hnu : 2 ^ o.nu = 2 ^ o.logK * 2 ^ (o.nu - o.logK) := by
    rw [← pow_add]
    congr 1
    omega
  rw [numRows_eq o h, column, hnu, sum_range_mul, sum_comm]
  refine sum_congr rfl fun row hrow => ?_
  have hrow := mem_range.mp hrow
  have hlt : row * 2 ^ o.sigma + col < 2 ^ o.logT := by
    rw [hT]
    exact split_lt hrow hcol
  have hindex (k : Nat) : (k * 2 ^ (o.nu - o.logK) + row) * 2 ^ o.sigma + col =
      k * 2 ^ o.logT + (row * 2 ^ o.sigma + col) := by
    rw [hT]
    ring
  simp only [hlayout, DoryLayout.indexToAddressCycle, hindex, div_of_split hlt, mod_of_split hlt, listCell]
  cases cycles[row * 2 ^ o.sigma + col]? with
  | none => exact sum_eq_zero fun k _ => mul_zero _
  | some c => exact (processCycle_eq gamma hlayout hle hrow c).symm

theorem materialized_eq (hlayout : o.layout = .CycleMajor) (h : o.sigma ≤ o.logT) :
    w.materializedVectorMatrixProduct gamma (leftVec o) = .some (w.givenProduct gamma (leftVec o)) := by
  have hpos : 2 ^ o.logT / 2 ^ o.sigma ≠ 0 := by
    rw [numRows_eq o h]
    exact (Nat.two_pow_pos _).ne'
  rw [materializedVectorMatrixProduct, givenProduct]
  rw [if_neg hpos]
  congr 1
  refine List.map_congr_left fun col hcol => ?_
  rw [cycleMajor_column gamma hlayout h w.trace (List.mem_range.mp hcol)]

omit [Challenge C F] in
theorem materialized_panics (h : o.logT < o.sigma) :
    w.materializedVectorMatrixProduct gamma left = .none := by
  have hzero : 2 ^ o.logT / 2 ^ o.sigma = 0 := Nat.div_eq_of_lt (Nat.pow_lt_pow_right (by omega) h)
  rw [materializedVectorMatrixProduct]
  rw [if_pos hzero]

omit [JoltField F] [Challenge C F] [DecidableEq F] in
theorem length_chunks_padded : (OneHotParams.chunks (2 ^ o.sigma) w.padded).length =
    divCeil (2 ^ o.logT) (2 ^ o.sigma) := by
  rw [OneHotParams.chunks, List.length_map, List.length_range, w.length_padded]

omit [JoltField F] [Challenge C F] [DecidableEq F] in
theorem getElem?_chunks_padded {row col : Nat} (hrow : row < divCeil (2 ^ o.logT) (2 ^ o.sigma))
    (hcol : col < 2 ^ o.sigma) :
    ((OneHotParams.chunks (2 ^ o.sigma) w.padded).getD row [])[col]? =
      w.padded[row * 2 ^ o.sigma + col]? := by
  have hrange : row < ((List.range (divCeil w.padded.length (2 ^ o.sigma)))).length := by
    rwa [List.length_range, w.length_padded]
  rw [OneHotParams.chunks, List.getD_eq_getElem?_getD, List.getElem?_map, List.getElem?_eq_getElem hrange,
    List.getElem_range]
  simp only [Option.map_some, Option.getD_some]
  rw [List.getElem?_take_of_lt hcol, List.getElem?_drop]

omit [Challenge C F] [DecidableEq F] in
/-- Within the padded trace the cells are those of its list. -/
theorem listCell_padded {cycle : Nat} (h : cycle < 2 ^ o.logT) (address : Nat) :
    listCell o gamma w.padded address cycle = w.traceCell gamma address cycle := by
  rw [listCell, w.getElem?_padded h]
  rfl

omit [Challenge C F] [DecidableEq F] in
theorem column_padded (hlayout : o.layout = .CycleMajor) (col : Nat) :
    column o left (listCell o gamma w.padded) col = column o left (w.traceCell gamma) col := by
  refine sum_congr rfl fun row _ => ?_
  rw [hlayout]
  simp only [DoryLayout.indexToAddressCycle]
  rw [w.listCell_padded gamma (Nat.mod_lt _ (Nat.two_pow_pos _))]

theorem lazy_eq (hlayout : o.layout = .CycleMajor) (h : o.sigma ≤ o.logT) :
    w.lazyVectorMatrixProduct gamma (leftVec o) = .some (w.matrixProduct gamma (leftVec o)) := by
  have hceil : divCeil (2 ^ o.logT) (2 ^ o.sigma) = 2 ^ o.logT / 2 ^ o.sigma := by
    have hpos := Nat.two_pow_pos o.sigma
    have hmul : 2 ^ o.logT / 2 ^ o.sigma * 2 ^ o.sigma = 2 ^ o.logT :=
      Nat.div_mul_cancel (Nat.pow_dvd_pow 2 h)
    have hdiv := div_of_split (i := 2 ^ o.logT / 2 ^ o.sigma) (j := 2 ^ o.sigma - 1) (b := 2 ^ o.sigma)
      (by omega)
    rw [hmul] at hdiv
    rw [divCeil, Nat.add_sub_assoc hpos]
    exact hdiv
  rw [w.matrixProduct_eq gamma _ length_leftVec, lazyVectorMatrixProduct]
  rw [w.length_chunks_padded, hceil, if_neg (Nat.lt_irrefl _)]
  congr 1
  refine List.map_congr_left fun col hcol => ?_
  have hcol := List.mem_range.mp hcol
  rw [← w.column_padded gamma _ hlayout, cycleMajor_column gamma hlayout h w.padded hcol]
  congr 1
  refine sum_congr rfl fun row hrow => ?_
  rw [w.getElem?_chunks_padded (by rw [hceil]; exact mem_range.mp hrow) hcol]

/-! ## The materialized polynomials -/

omit [JoltField F] [Challenge C F] [DecidableEq F] in
theorem kFromMatrixShape_eq (o : JointOpening C) : kFromMatrixShape o = 2 ^ o.logK := by
  rw [kFromMatrixShape, o.two_pow_nu_mul, Nat.mul_div_cancel _ (Nat.two_pow_pos _)]

omit [Challenge C F] [DecidableEq F] in
/-- The cycles that are given, as a sum over the padded trace. -/
theorem oneHotProduct_eq (poly : CommittedPolynomial) (col : Nat) :
    w.oneHotProduct gamma left poly col = ∑ c ∈ range (2 ^ o.logT),
      match (w.trace[c]?).bind (o.params.chunkIndex · poly) with
      | .some k =>
        if o.layout.addressCycleToIndex k c (2 ^ o.logK) o.traceLen / 2 ^ o.sigma < left.length ∧
            o.layout.addressCycleToIndex k c (2 ^ o.logK) o.traceLen % 2 ^ o.sigma = col then
          o.coeff gamma poly *
            left.getD (o.layout.addressCycleToIndex k c (2 ^ o.logK) o.traceLen / 2 ^ o.sigma) 0
        else 0
      | .none => 0 := by
  have hlength : (w.nonzeroIndices poly).length = o.traceLen := by
    rw [nonzeroIndices, List.length_map, w.length_trace]
  have hindex (c : Nat) : (w.nonzeroIndices poly).getD c .none =
      (w.trace[c]?).bind (o.params.chunkIndex · poly) := by
    rw [nonzeroIndices, List.getD_eq_getElem?_getD, List.getElem?_map]
    cases w.trace[c]? <;> rfl
  simp only [oneHotProduct, hlength, hindex]
  rw [← sum_range_block o.traceLen_le]
  refine sum_congr rfl fun c _ => ?_
  by_cases hlt : c < o.traceLen
  · rw [if_pos hlt]
  · rw [if_neg hlt, List.getElem?_eq_none (by rw [w.length_trace]; exact Nat.not_lt.mp hlt)]
    rfl

omit [Challenge C F] [DecidableEq F] in
/-- One column of the trace polynomials in the address-major layout. -/
theorem addressMajor_column (hlayout : o.layout = .AddressMajor) (h : o.logK ≤ o.sigma)
    (hleft : left.length = 2 ^ o.nu) {col : Nat} (hcol : col < 2 ^ o.sigma) :
    column o left (listCell o gamma w.trace) col =
      (if col % 2 ^ o.logK = 0 then
        ∑ i ∈ range left.length, if col / 2 ^ o.logK + i * 2 ^ (o.sigma - o.logK) < 2 ^ o.logT then
          w.denseRlc gamma (col / 2 ^ o.logK + i * 2 ^ (o.sigma - o.logK)) * left.getD i 0 else 0
      else 0) + (o.params.polynomialTypes.map fun poly => w.oneHotProduct gamma left poly col).sum := by
  have hsum := o.nu_add_sigma
  have hcols : 2 ^ o.sigma = 2 ^ (o.sigma - o.logK) * 2 ^ o.logK := by
    rw [← pow_add]
    congr 1
    omega
  have hT : 2 ^ o.logT = 2 ^ o.nu * 2 ^ (o.sigma - o.logK) := by
    rw [← pow_add]
    congr 1
    omega
  have hK := Nat.two_pow_pos o.logK
  have hq : col / 2 ^ o.logK < 2 ^ (o.sigma - o.logK) := by
    rw [Nat.div_lt_iff_lt_mul hK, ← hcols]
    exact hcol
  have ha : col % 2 ^ o.logK < 2 ^ o.logK := Nat.mod_lt _ hK
  have hdecomp : col / 2 ^ o.logK * 2 ^ o.logK + col % 2 ^ o.logK = col := Nat.div_add_mod' col _
  have hplace (row : Nat) : o.layout.indexToAddressCycle (row * 2 ^ o.sigma + col) (2 ^ o.logK) (2 ^ o.logT) =
      (col % 2 ^ o.logK, row * 2 ^ (o.sigma - o.logK) + col / 2 ^ o.logK) := by
    have hindex : row * 2 ^ o.sigma + col =
        (row * 2 ^ (o.sigma - o.logK) + col / 2 ^ o.logK) * 2 ^ o.logK + col % 2 ^ o.logK := by
      rw [Nat.add_mul, Nat.add_assoc, hdecomp, Nat.mul_assoc, ← hcols]
    simp only [hlayout, DoryLayout.indexToAddressCycle]
    rw [hindex, div_of_split ha, mod_of_split ha]
  have hsplit (address cycle : Nat) : listCell o gamma w.trace address cycle =
      (if address = 0 then w.denseRlc gamma cycle else 0) + (o.params.polynomialTypes.map fun poly =>
        o.coeff gamma poly *
          if (w.trace[cycle]?).bind (o.params.chunkIndex · poly) = .some address then 1 else 0).sum := by
    rw [listCell, denseRlc]
    cases w.trace[cycle]? with
    | none => simp
    | some c =>
      simp only [Option.bind_some]
      rw [cycleCell, add_comm (o.coeff gamma .RamInc * _)]
  simp only [column, hplace, hsplit, mul_add, sum_add_distrib]
  congr 1
  · by_cases hzero : col % 2 ^ o.logK = 0
    · rw [if_pos hzero, hleft]
      simp only [if_pos hzero]
      refine sum_congr rfl fun row hrow => ?_
      have hlt : col / 2 ^ o.logK + row * 2 ^ (o.sigma - o.logK) < 2 ^ o.logT := by
        rw [hT, Nat.add_comm]
        exact split_lt (mem_range.mp hrow) hq
      rw [if_pos hlt, Nat.add_comm (col / 2 ^ o.logK), mul_comm]
    · simp only [if_neg hzero, mul_zero, sum_const_zero]
  · have hlist := sum_sum_list (range (2 ^ o.nu)) {0} o.params.polynomialTypes
      (fun row _ => left.getD row 0) fun poly row _ => o.coeff gamma poly *
        if (w.trace[row * 2 ^ (o.sigma - o.logK) + col / 2 ^ o.logK]?).bind (o.params.chunkIndex · poly) =
          .some (col % 2 ^ o.logK) then 1 else 0
    simp only [sum_singleton] at hlist
    rw [hlist]
    congr 1
    refine List.map_congr_left fun poly _ => ?_
    rw [oneHotProduct_eq, hT, sum_range_mul]
    refine sum_congr rfl fun row hrow => ?_
    have hrow := mem_range.mp hrow
    have hmem : col / 2 ^ o.logK ∈ range (2 ^ (o.sigma - o.logK)) := mem_range.mpr hq
    -- only the cycle of the column has its address there
    have hterm (q : Nat) (hq' : q < 2 ^ (o.sigma - o.logK)) (k : Nat) (hk : k < 2 ^ o.logK) :
        let index := o.layout.addressCycleToIndex k (row * 2 ^ (o.sigma - o.logK) + q) (2 ^ o.logK) o.traceLen
        index / 2 ^ o.sigma = row ∧ index % 2 ^ o.sigma = q * 2 ^ o.logK + k := by
      have hlow : q * 2 ^ o.logK + k < 2 ^ o.sigma := by
        rw [hcols]
        exact split_lt hq' hk
      have hindex : (row * 2 ^ (o.sigma - o.logK) + q) * 2 ^ o.logK + k =
          row * 2 ^ o.sigma + (q * 2 ^ o.logK + k) := by
        rw [Nat.add_mul, Nat.add_assoc, Nat.mul_assoc, ← hcols]
      simp only [hlayout, DoryLayout.addressCycleToIndex]
      rw [hindex]
      exact ⟨div_of_split hlow, mod_of_split hlow⟩
    have hchunk {c k : Nat} (hk : (w.trace[c]?).bind (o.params.chunkIndex · poly) = .some k) :
        k < 2 ^ o.logK := by
      obtain ⟨cycle, -, hcycle⟩ := Option.bind_eq_some_iff.mp hk
      exact o.params.chunkIndex_lt hcycle
    rw [sum_eq_single_of_mem _ hmem fun q hq' hne => ?_]
    · cases hk : (w.trace[row * 2 ^ (o.sigma - o.logK) + col / 2 ^ o.logK]?).bind
          (o.params.chunkIndex · poly) with
      | none => rw [if_neg (Option.some_ne_none _).symm, mul_zero, mul_zero]
      | some k =>
        obtain ⟨hdiv, hmod⟩ := hterm _ hq k (hchunk hk)
        simp only
        rw [hdiv, hmod, hleft]
        by_cases heq : k = col % 2 ^ o.logK
        · rw [if_pos (congrArg Option.some heq), if_pos ⟨hrow, by rw [heq, hdecomp]⟩]
          ring
        · rw [if_neg fun h => heq (Option.some.inj h), if_neg fun h => heq (by omega), mul_zero, mul_zero]
    · cases hk : (w.trace[row * 2 ^ (o.sigma - o.logK) + q]?).bind (o.params.chunkIndex · poly) with
      | none => rfl
      | some k =>
        obtain ⟨hdiv, hmod⟩ := hterm q (mem_range.mp hq') k (hchunk hk)
        simp only
        rw [hmod, if_neg]
        intro h
        apply hne
        rw [← h.2, div_of_split (hchunk hk)]

theorem addressMajor_eq (hlayout : o.layout = .AddressMajor) (h : o.logK ≤ o.sigma) :
    w.addressMajorVectorMatrixProduct gamma (leftVec o) = .some (w.givenProduct gamma (leftVec o)) := by
  have hcycles : 2 ^ o.sigma / kFromMatrixShape o = 2 ^ (o.sigma - o.logK) := by
    rw [kFromMatrixShape_eq, Nat.pow_div h (by omega)]
  have hstep : 2 ^ o.sigma / 2 ^ (o.sigma - o.logK) = 2 ^ o.logK := by
    rw [Nat.pow_div (by omega) (by omega)]
    congr 1
    omega
  rw [givenProduct, addressMajorVectorMatrixProduct]
  simp only
  rw [hcycles, if_neg (Nat.two_pow_pos _).ne', hstep]
  congr 1
  refine List.map_congr_left fun col hcol => ?_
  rw [w.addressMajor_column gamma _ hlayout h length_leftVec (List.mem_range.mp hcol)]

omit [Challenge C F] in
theorem addressMajor_panics (h : o.sigma < o.logK) :
    w.addressMajorVectorMatrixProduct gamma left = .none := by
  have hzero : 2 ^ o.sigma / kFromMatrixShape o = 0 := by
    rw [kFromMatrixShape_eq]
    exact Nat.div_eq_of_lt (Nat.pow_lt_pow_right (by omega) h)
  rw [addressMajorVectorMatrixProduct]
  simp only
  rw [if_pos hzero]

end JointWitness

end Products

end LightningJolt
