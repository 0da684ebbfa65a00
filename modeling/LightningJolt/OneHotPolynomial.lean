/-
One-hot polynomials (`jolt-core/src/poly/one_hot_polynomial.rs`): the evaluation, the rows and
columns a commitment takes its bases from and the vector-matrix product, in both layouts and on
the fast paths of the cycle-major one, against the dense matrix.
-/
import LightningJolt.DenseBinding
import LightningJolt.LayoutPartition
import LightningJolt.RlcProducts

namespace LightningJolt

open Finset

/-- What the operations read of `DoryGlobals`. -/
structure DoryShape where
  layout : DoryLayout
  numColumns : Nat
  maxNumRows : Nat
  T : Nat

/-- `address_major_cycles_per_row`, over `k_from_matrix_shape`. -/
def DoryShape.addressMajorCyclesPerRow (g : DoryShape) : Option Nat := do
  guard (g.T ≠ 0)
  let k := g.maxNumRows * g.numColumns / g.T
  guard (k ≠ 0)
  pure (g.numColumns / k)

structure OneHotPolynomial where
  K : Nat
  nonzeroIndices : List (Option Nat)

namespace OneHotPolynomial

section Source

variable {F C : Type} [JoltField F] [Challenge C F] (g : DoryShape) (p : OneHotPolynomial)

/-- `num_rows`. -/
def numRows : Option Nat :=
  match g.layout with
  | .AddressMajor => do
    let cyclesPerRow ← g.addressMajorCyclesPerRow
    guard (cyclesPerRow ≠ 0)
    pure (divCeil p.nonzeroIndices.length cyclesPerRow)
  | .CycleMajor => do
    guard (g.numColumns ≠ 0)
    pure (divCeil (p.nonzeroIndices.length * p.K) g.numColumns)

def evaluate (r : List C) : Option F := do
  let logT ← log2 p.nonzeroIndices.length
  guard (logT ≤ r.length)
  let eqRAddress : List F := EqPolynomial.evals (r.take (r.length - logT))
  let eqRCycle : List F := EqPolynomial.evals (r.drop (r.length - logT))
  let terms ← (p.nonzeroIndices.zip eqRCycle).mapM fun (k, eqCycle) =>
    match k with
    | .some k => (eqRAddress[k]?).map fun e => e * eqCycle
    | .none => .some 0
  pure terms.sum

/-! ## The rows of a commitment -/

/-- The loop of the general path, which collects the columns of each row. -/
def rowIndices (numRows : Nat) : List (List Nat) :=
  p.nonzeroIndices.zipIdx.foldl (fun rows (k, cycle) =>
    match k with
    | .none => rows
    | .some k =>
      let globalIndex := g.layout.addressCycleToIndex k cycle p.K p.nonzeroIndices.length
      let rowIndex := globalIndex / g.numColumns
      let colIndex := globalIndex % g.numColumns
      if rowIndex < numRows then rows.modify rowIndex (· ++ [colIndex]) else rows)
    (List.replicate numRows [])

/-- `indices_per_k` of a chunk of cycles. -/
def indicesPerK (chunk : List (Option Nat)) : Option (List (List Nat)) :=
  chunk.zipIdx.foldlM (fun perK (k, colIndex) =>
    match k with
    | .none => .some perK
    | .some k => if k < perK.length then .some (perK.modify k (· ++ [colIndex])) else .none)
    (List.replicate p.K [])

/-- The fast path: each chunk of cycles writes every `rowsPerK`-th row from its own. -/
def chunkIndices (numRows rowsPerK : Nat) : Option (List (List Nat)) := do
  let chunks ← (List.range (divCeil p.nonzeroIndices.length g.numColumns)).mapM fun chunkIndex =>
    p.indicesPerK ((p.nonzeroIndices.drop (chunkIndex * g.numColumns)).take g.numColumns)
  pure (chunks.zipIdx.foldl (fun rows (perK, chunkIndex) =>
    perK.zipIdx.foldl (fun rows (columns, k) => rows.set (chunkIndex + k * rowsPerK) columns) rows)
    (List.replicate numRows []))

/-- `commit_rows`, up to the additions: the columns whose bases are added up for each row. -/
def commitRows (threads : Nat) : Option (List (List Nat)) := do
  let numRows ← p.numRows g
  guard (g.numColumns ≠ 0)
  let rowsPerK := p.nonzeroIndices.length / g.numColumns
  if g.layout = .CycleMajor ∧ rowsPerK ≥ threads then p.chunkIndices g numRows rowsPerK
  else pure (p.rowIndices g numRows)

/-! ## The vector-matrix product -/

/-- One entry of the general path. -/
def addEntry (leftVec : List F) (coeff : F) (result : List F) (entry : Option Nat × Nat) : List F :=
  match entry.1 with
  | .none => result
  | .some k =>
    let globalIndex := g.layout.addressCycleToIndex k entry.2 p.K p.nonzeroIndices.length
    let rowIndex := globalIndex / g.numColumns
    let colIndex := globalIndex % g.numColumns
    if rowIndex < leftVec.length ∧ colIndex < result.length then
      result.modify colIndex (· + coeff * leftVec.getD rowIndex 0)
    else result

def generalProduct (leftVec : List F) (coeff : F) (result : List F) : List F :=
  p.nonzeroIndices.zipIdx.foldl (p.addEntry g leftVec coeff) result

/-- The fast path in one column: every `numColumns`-th cycle from the column's own. -/
def columnDotProduct (leftVec : List F) (colIndex : Nat) : Option F := do
  let t := p.nonzeroIndices.length
  let rowsPerK := t / g.numColumns
  let terms ← ((List.range' colIndex (divCeil (t - colIndex) g.numColumns) g.numColumns).zipIdx).mapM
    fun (cycle, rowOffset) =>
      match p.nonzeroIndices[cycle]? with
      | .none => .none
      | .some .none => .some 0
      | .some (.some k) => leftVec[k * rowsPerK + rowOffset]?
  pure terms.sum

def fastProduct (leftVec : List F) (coeff : F) (result : List F) : Option (List F) :=
  result.zipIdx.mapM fun (dest, colIndex) => do
    let colDotProduct ← p.columnDotProduct g leftVec colIndex
    pure (dest + coeff * colDotProduct)

def vectorMatrixProduct (leftVec : List F) (coeff : F) (result : List F) : Option (List F) :=
  if g.layout = .CycleMajor ∧ p.nonzeroIndices.length ≥ g.numColumns then
    if g.numColumns = 0 then .none else p.fastProduct g leftVec coeff result
  else .some (p.generalProduct g leftVec coeff result)

end Source

/-! ## The dense matrix -/

variable (p : OneHotPolynomial)

/-- The address at a cycle, none past the last. -/
def addressAt (cycle : Nat) : Option Nat := p.nonzeroIndices.getD cycle .none

/-- The addresses are below `K`. -/
def InRange : Prop := ∀ k, .some k ∈ p.nonzeroIndices → k < p.K

/-- Whether the `K` by `T` matrix in a layout has a one at an index. -/
def OneAt (layout : DoryLayout) (K T i : Nat) : Prop :=
  i < K * T ∧ p.addressAt (layout.indexToAddressCycle i K T).2 = .some (layout.indexToAddressCycle i K T).1

instance (layout : DoryLayout) (K T i : Nat) : Decidable (p.OneAt layout K T i) := inferInstanceAs (Decidable (_ ∧ _))

/-- The coefficient there. -/
def denseCoeff {F : Type} [JoltField F] (layout : DoryLayout) (K T i : Nat) : F :=
  if p.OneAt layout K T i then 1 else 0

theorem addressAt_lt (h : p.InRange) {c k : Nat} (hk : p.addressAt c = .some k) :
    c < p.nonzeroIndices.length ∧ k < p.K := by
  rw [addressAt, List.getD_eq_getElem?_getD] at hk
  by_cases hc : c < p.nonzeroIndices.length
  · rw [List.getElem?_eq_getElem hc, Option.getD_some] at hk
    exact ⟨hc, h k (hk ▸ List.getElem_mem hc)⟩
  · rw [List.getElem?_eq_none (by omega)] at hk
    cases hk

theorem addressCycleToIndex_lt (layout : DoryLayout) {k c K T : Nat} (hk : k < K) (hc : c < T) :
    layout.addressCycleToIndex k c K T < K * T := by
  cases layout with
  | CycleMajor =>
    have hle : (k + 1) * T ≤ K * T := Nat.mul_le_mul_right T hk
    rw [DoryLayout.addressCycleToIndex]
    rw [Nat.succ_mul] at hle
    omega
  | AddressMajor =>
    have hle : (c + 1) * K ≤ T * K := Nat.mul_le_mul_right K hc
    rw [DoryLayout.addressCycleToIndex, Nat.mul_comm K T]
    rw [Nat.succ_mul] at hle
    omega

theorem indexToAddressCycle_index (layout : DoryLayout) {k c K T : Nat} (hk : k < K) (hc : c < T) :
    layout.indexToAddressCycle (layout.addressCycleToIndex k c K T) K T = (k, c) := by
  cases layout with
  | CycleMajor =>
    rw [DoryLayout.addressCycleToIndex, DoryLayout.indexToAddressCycle, Nat.mul_comm k T,
      Nat.mul_add_div (by omega), Nat.div_eq_of_lt hc, Nat.mul_add_mod, Nat.mod_eq_of_lt hc, add_zero]
  | AddressMajor =>
    rw [DoryLayout.addressCycleToIndex, DoryLayout.indexToAddressCycle, Nat.mul_comm c K,
      Nat.mul_add_div (by omega), Nat.div_eq_of_lt hk, Nat.mul_add_mod, Nat.mod_eq_of_lt hk, add_zero]

theorem addressCycleToIndex_index (layout : DoryLayout) (i K T : Nat) :
    layout.addressCycleToIndex (layout.indexToAddressCycle i K T).1 (layout.indexToAddressCycle i K T).2 K T = i := by
  cases layout with
  | CycleMajor => exact Nat.div_add_mod' i T
  | AddressMajor => exact Nat.div_add_mod' i K

section Dense

variable {F : Type} [JoltField F]

/-- What a cycle adds to a sum over the matrix. -/
def atCycle (layout : DoryLayout) (K T : Nat) (f : Nat → F) (c : Nat) : F :=
  match p.addressAt c with
  | .some k => f (layout.addressCycleToIndex k c K T)
  | .none => 0

/-- A sum over the coefficients has one term for each cycle with an address. -/
theorem sum_denseCoeff {layout : DoryLayout} {K T : Nat} (h : p.InRange) (hK : p.K ≤ K)
    (hT : p.nonzeroIndices.length ≤ T) (f : Nat → F) :
    ∑ i ∈ range (K * T), p.denseCoeff layout K T i * f i =
      ∑ c ∈ range p.nonzeroIndices.length, p.atCycle layout K T f c := by
  have hleft : ∑ i ∈ range (K * T), p.denseCoeff layout K T i * f i =
      ∑ i ∈ (range (K * T)).filter (fun i => p.addressAt (layout.indexToAddressCycle i K T).2 =
        .some (layout.indexToAddressCycle i K T).1), f i := by
    rw [sum_filter]
    refine sum_congr rfl fun i hi => ?_
    rw [denseCoeff]
    by_cases hhit : p.addressAt (layout.indexToAddressCycle i K T).2 = .some (layout.indexToAddressCycle i K T).1
    · rw [if_pos ⟨mem_range.mp hi, hhit⟩, if_pos hhit, one_mul]
    · rw [if_neg fun hboth => hhit hboth.2, if_neg hhit, zero_mul]
  have hright : ∑ c ∈ range p.nonzeroIndices.length, p.atCycle layout K T f c =
      ∑ c ∈ (range p.nonzeroIndices.length).filter (fun c => (p.addressAt c).isSome), p.atCycle layout K T f c := by
    refine (sum_filter_of_ne fun c _ hne => ?_).symm
    rw [atCycle] at hne
    cases hk : p.addressAt c with
    | none => rw [hk] at hne; exact absurd rfl hne
    | some k => rfl
  rw [hleft, hright]
  refine sum_nbij' (fun i => (layout.indexToAddressCycle i K T).2)
    (fun c => layout.addressCycleToIndex ((p.addressAt c).getD 0) c K T) ?_ ?_ ?_ ?_ ?_
  · intro i hi
    obtain ⟨-, hhit⟩ := mem_filter.mp hi
    exact mem_filter.mpr ⟨mem_range.mpr (p.addressAt_lt h hhit).1, by rw [hhit]; rfl⟩
  · intro c hc
    obtain ⟨hc, hsome⟩ := mem_filter.mp hc
    obtain ⟨k, hk⟩ := Option.isSome_iff_exists.mp hsome
    have hlt := p.addressAt_lt h hk
    have hkK : k < K := by omega
    have hcT : c < T := by omega
    refine mem_filter.mpr ⟨mem_range.mpr ?_, ?_⟩
    · rw [hk]
      exact addressCycleToIndex_lt layout hkK hcT
    · rw [hk, Option.getD_some, indexToAddressCycle_index layout hkK hcT, hk]
  · intro i hi
    obtain ⟨-, hhit⟩ := mem_filter.mp hi
    rw [hhit, Option.getD_some, addressCycleToIndex_index]
  · intro c hc
    obtain ⟨-, hsome⟩ := mem_filter.mp hc
    obtain ⟨k, hk⟩ := Option.isSome_iff_exists.mp hsome
    have hlt := p.addressAt_lt h hk
    rw [hk, Option.getD_some, indexToAddressCycle_index layout (by omega) (by omega)]
  · intro i hi
    obtain ⟨-, hhit⟩ := mem_filter.mp hi
    rw [atCycle, hhit]
    simp only [addressCycleToIndex_index]

end Dense

/-! ## Evaluation -/

theorem getD_take_drop {α : Type} (l : List α) (start : Nat) {width i : Nat} (hi : i < width) (d : α) :
    ((l.drop start).take width).getD i d = l.getD (start + i) d := by
  rw [List.getD_eq_getElem?_getD, List.getElem?_take_of_lt hi, List.getElem?_drop, List.getD_eq_getElem?_getD]

section Sums

variable {F : Type} [JoltField F]

theorem sum_zip {α β : Type} (l : List α) (m : List β) (d : α) (e : β) (f : α × β → F) (h : l.length ≤ m.length) :
    ((l.zip m).map f).sum = ∑ c ∈ range l.length, f (l.getD c d, m.getD c e) := by
  induction l generalizing m with
  | nil => rfl
  | cons x l ih =>
    cases m with
    | nil => exact absurd h (by simp)
    | cons y m =>
      have htail := ih m (by simpa using h)
      rw [List.zip_cons_cons, List.map_cons, List.sum_cons, htail, List.length_cons, sum_range_succ', add_comm]
      simp only [List.getD_cons_succ, List.getD_cons_zero]

theorem sum_zipIdx {α : Type} (l : List α) (d : α) (f : α × Nat → F) :
    (l.zipIdx.map f).sum = ∑ c ∈ range l.length, f (l.getD c d, c) := by
  rw [List.zipIdx_eq_zip_range', sum_zip l _ d 0 f (by rw [List.length_range'])]
  refine sum_congr rfl fun c hc => ?_
  have hget : (List.range' 0 l.length).getD c 0 = c := by
    rw [List.getD_eq_getElem?_getD, List.getElem?_range' (mem_range.mp hc), Option.getD_some, zero_add, one_mul]
  rw [hget]

end Sums

section Evaluate

variable {F C : Type} [JoltField F] [Challenge C F]

/-- The point of the matrix in a layout, from one of `a` address variables before the cycle's. -/
def layoutPoint (layout : DoryLayout) (a : Nat) (r : List C) : List F :=
  match layout with
  | .CycleMajor => (r.take a).map Challenge.into ++ (r.drop a).map Challenge.into
  | .AddressMajor => (r.drop a).map Challenge.into ++ (r.take a).map Challenge.into

theorem eqAt_layoutPoint {layout : DoryLayout} {a b k c : Nat} {r : List C} (hlen : r.length = a + b)
    (hk : k < 2 ^ a) (hc : c < 2 ^ b) :
    eqAt (layoutPoint layout a r : List F) (layout.addressCycleToIndex k c (2 ^ a) (2 ^ b)) =
      eqAt ((r.take a).map Challenge.into) k * eqAt ((r.drop a).map Challenge.into) c := by
  have htake : ((r.take a).map (Challenge.into : C → F)).length = a := by
    rw [List.length_map, List.length_take, hlen]
    omega
  have hdrop : ((r.drop a).map (Challenge.into : C → F)).length = b := by
    rw [List.length_map, List.length_drop, hlen]
    omega
  cases layout with
  | CycleMajor =>
    have happ := eqAt_append ((r.take a).map (Challenge.into : C → F)) ((r.drop a).map Challenge.into) k
      (j := c) (by rwa [hdrop])
    rw [hdrop] at happ
    exact happ
  | AddressMajor =>
    have happ := eqAt_append ((r.drop a).map (Challenge.into : C → F)) ((r.take a).map Challenge.into) c
      (j := k) (by rwa [htake])
    rw [htake] at happ
    exact happ.trans (mul_comm _ _)

theorem evaluate_dense {layout : DoryLayout} {a b : Nat} {r : List C} (h : p.InRange)
    (hb : log2 p.nonzeroIndices.length = .some b) (hT : p.nonzeroIndices.length ≤ 2 ^ b) (hK : p.K ≤ 2 ^ a)
    (hlen : r.length = a + b) :
    p.evaluate r = .some (∑ i ∈ range (2 ^ a * 2 ^ b),
      p.denseCoeff layout (2 ^ a) (2 ^ b) i * eqAt (layoutPoint layout a r : List F) i) := by
  have hsplit : r.length - b = a := by omega
  have haddress : (eqTable ((r.take a).map (Challenge.into : C → F))).length = 2 ^ a := by
    rw [length_eqTable, List.length_map, List.length_take, hlen, Nat.min_eq_left (by omega)]
  have hcycle : (eqTable ((r.drop a).map (Challenge.into : C → F))).length = 2 ^ b := by
    rw [length_eqTable, List.length_map, List.length_drop, hlen, Nat.add_sub_cancel_left]
  have hterms : (p.nonzeroIndices.zip (eqTable ((r.drop a).map (Challenge.into : C → F)))).mapM
      (fun (k, eqCycle) => match k with
        | .some k => ((eqTable ((r.take a).map (Challenge.into : C → F)))[k]?).map fun e => e * eqCycle
        | .none => .some 0) =
      .some ((p.nonzeroIndices.zip (eqTable ((r.drop a).map (Challenge.into : C → F)))).map fun x =>
        match x.1 with
        | .some k => eqAt ((r.take a).map Challenge.into) k * x.2
        | .none => 0) := by
    refine mapM_of_some ?_
    intro x hx
    obtain ⟨k, e⟩ := x
    cases k with
    | none => rfl
    | some k =>
      have hk := h k (List.of_mem_zip hx).1
      rw [← haddress] at hK
      have hget : (eqTable ((r.take a).map (Challenge.into : C → F)))[k]? =
          .some (eqAt ((r.take a).map Challenge.into) k) := by
        rw [eqAt, List.getD_eq_getElem?_getD, List.getElem?_eq_getElem (by omega), Option.getD_some]
      simp only [hget, Option.map_some]
  have hguard : b ≤ r.length := by omega
  rw [evaluate, hb]
  simp only [Option.bind_eq_bind, Option.bind_some, hguard, guard_true, Option.pure_def, hsplit, EqPolynomial.evals_eq]
  rw [hterms, Option.bind_some, sum_denseCoeff p h hK hT]
  refine congrArg some ?_
  rw [sum_zip _ _ .none 0 _ (by rw [hcycle]; exact hT)]
  refine sum_congr rfl fun c hc => ?_
  have hc := mem_range.mp hc
  rw [atCycle, addressAt]
  cases hk : p.nonzeroIndices.getD c .none with
  | none => rfl
  | some k =>
    have hlt := p.addressAt_lt h hk
    simp only
    rw [eqAt_layoutPoint hlen (by omega) (by omega)]
    rfl

end Evaluate

/-! ## The product with the rows' weights -/

section Product

variable {F : Type} [JoltField F] (g : DoryShape) {p} (leftVec : List F)

/-- The weight of the index in one column. -/
def columnWeight (n col i : Nat) : F := if i % n = col then leftVec.getD (i / n) 0 else 0

/-- The product with one column of the dense matrix. -/
def denseProduct (p : OneHotPolynomial) (col : Nat) : F :=
  ∑ row ∈ range leftVec.length, leftVec.getD row 0 *
    p.denseCoeff g.layout p.K p.nonzeroIndices.length (row * g.numColumns + col)

theorem denseProduct_eq (h : p.InRange) {col : Nat} (hcol : col < g.numColumns)
    (hleft : p.K * p.nonzeroIndices.length ≤ leftVec.length * g.numColumns) :
    p.denseProduct g leftVec col = ∑ c ∈ range p.nonzeroIndices.length,
      p.atCycle g.layout p.K p.nonzeroIndices.length (columnWeight leftVec g.numColumns col) c := by
  rw [← p.sum_denseCoeff h le_rfl le_rfl]
  have hpad : ∑ i ∈ range (p.K * p.nonzeroIndices.length), p.denseCoeff g.layout p.K p.nonzeroIndices.length i *
        columnWeight leftVec g.numColumns col i =
      ∑ i ∈ range (leftVec.length * g.numColumns), p.denseCoeff g.layout p.K p.nonzeroIndices.length i *
        columnWeight leftVec g.numColumns col i := by
    refine sum_subset (range_mono hleft) fun i _ hi => ?_
    have hi : ¬ i < p.K * p.nonzeroIndices.length := fun hlt => hi (mem_range.mpr hlt)
    rw [denseCoeff, if_neg fun hboth => hi hboth.1, zero_mul]
  rw [hpad, sum_range_mul, denseProduct]
  refine sum_congr rfl fun row _ => ?_
  rw [sum_eq_single_of_mem col (mem_range.mpr hcol) fun j hj hne => ?_]
  · rw [columnWeight, mod_of_split hcol, if_pos rfl, div_of_split hcol, mul_comm]
  · rw [columnWeight, mod_of_split (mem_range.mp hj), if_neg hne, mul_zero]

/-! ### The general path -/

/-- What an entry adds in a column. -/
def entryAt (p : OneHotPolynomial) (col : Nat) (entry : Option Nat × Nat) : F :=
  match entry.1 with
  | .none => 0
  | .some k => columnWeight leftVec g.numColumns col
    (g.layout.addressCycleToIndex k entry.2 p.K p.nonzeroIndices.length)

variable {leftVec} (coeff : F)

theorem length_addEntry (result : List F) (entry : Option Nat × Nat) :
    (p.addEntry g leftVec coeff result entry).length = result.length := by
  obtain ⟨k, cycle⟩ := entry
  cases k with
  | none => rfl
  | some k =>
    simp only [addEntry]
    split
    · exact List.length_modify ..
    · rfl

theorem getD_addEntry {result : List F} {col : Nat} (hcol : col < result.length) (entry : Option Nat × Nat) :
    (p.addEntry g leftVec coeff result entry).getD col 0 =
      result.getD col 0 + coeff * p.entryAt g leftVec col entry := by
  obtain ⟨k, cycle⟩ := entry
  cases k with
  | none => exact (by rw [entryAt, mul_zero, add_zero]; rfl)
  | some k =>
    simp only [addEntry, entryAt, columnWeight]
    generalize g.layout.addressCycleToIndex k cycle p.K p.nonzeroIndices.length = index
    by_cases hrow : index / g.numColumns < leftVec.length
    · by_cases hmod : index % g.numColumns = col
      · rw [if_pos ⟨hrow, hmod ▸ hcol⟩, if_pos hmod, List.getD_eq_getElem?_getD, List.getElem?_modify,
          List.getElem?_eq_getElem hcol, List.getD_eq_getElem _ _ hcol]
        simp only [if_pos hmod, Option.map_eq_map, Option.map_some, Option.getD_some]
      · rw [if_neg hmod, mul_zero, add_zero]
        split
        · rw [List.getD_eq_getElem?_getD, List.getElem?_modify, List.getElem?_eq_getElem hcol,
            List.getD_eq_getElem _ _ hcol]
          simp only [if_neg hmod, Option.map_eq_map, Option.map_some, Option.getD_some]
        · rfl
    · have hout : leftVec.getD (index / g.numColumns) 0 = 0 := List.getD_eq_default _ _ (by omega)
      rw [if_neg fun hboth => hrow hboth.1, hout, ite_self, mul_zero, add_zero]

theorem foldl_addEntry (entries : List (Option Nat × Nat)) {result : List F} {col : Nat} (hcol : col < result.length) :
    (entries.foldl (p.addEntry g leftVec coeff) result).length = result.length ∧
      (entries.foldl (p.addEntry g leftVec coeff) result).getD col 0 =
        result.getD col 0 + coeff * (entries.map (p.entryAt g leftVec col)).sum := by
  induction entries generalizing result with
  | nil => exact ⟨rfl, by simp⟩
  | cons entry entries ih =>
    have hlength := @length_addEntry p F _ g leftVec coeff result entry
    obtain ⟨htail, hvalue⟩ := @ih (p.addEntry g leftVec coeff result entry) (by rw [hlength]; exact hcol)
    rw [List.foldl_cons, List.map_cons, List.sum_cons, htail, hvalue, getD_addEntry g coeff hcol]
    exact ⟨hlength, by ring⟩

theorem sum_entries (col : Nat) :
    (p.nonzeroIndices.zipIdx.map (p.entryAt g leftVec col)).sum = ∑ c ∈ range p.nonzeroIndices.length,
      p.atCycle g.layout p.K p.nonzeroIndices.length (columnWeight leftVec g.numColumns col) c := by
  rw [sum_zipIdx _ .none]
  refine sum_congr rfl fun c _ => ?_
  rw [entryAt, atCycle, addressAt]
  cases p.nonzeroIndices.getD c .none with
  | none => rfl
  | some k => rfl

theorem length_generalProduct (result : List F) :
    (p.generalProduct g leftVec coeff result).length = result.length := by
  rw [generalProduct]
  generalize p.nonzeroIndices.zipIdx = entries
  induction entries generalizing result with
  | nil => rfl
  | cons entry entries ih => rw [List.foldl_cons, ih, length_addEntry]

/-- The product the dense matrix gives, added to the result. -/
def addProduct (p : OneHotPolynomial) (leftVec : List F) (coeff : F) (result : List F) : List F :=
  tableOf g.numColumns fun col => result.getD col 0 + coeff * p.denseProduct g leftVec col

theorem generalProduct_eq (h : p.InRange) {result : List F} (hresult : result.length = g.numColumns)
    (hleft : p.K * p.nonzeroIndices.length ≤ leftVec.length * g.numColumns) :
    p.generalProduct g leftVec coeff result = p.addProduct g leftVec coeff result := by
  have htable := tableOf_getD (p.generalProduct g leftVec coeff result) 0
  rw [length_generalProduct, hresult] at htable
  rw [← htable, addProduct]
  refine tableOf_congr fun col hcol => ?_
  rw [denseProduct_eq g leftVec h hcol hleft, ← sum_entries]
  exact (foldl_addEntry g coeff p.nonzeroIndices.zipIdx (by omega)).2

/-! ### The fast path -/

theorem divCeil_column {q n col : Nat} (hcol : col < n) : divCeil (q * n - col) n = q := by
  rw [divCeil]
  cases q with
  | zero =>
    rw [Nat.zero_mul, Nat.zero_sub, Nat.zero_add]
    exact Nat.div_eq_of_lt (by omega)
  | succ q =>
    have hsplit : (q + 1) * n - col + n - 1 = (q + 1) * n + (n - 1 - col) := by
      rw [Nat.succ_mul]
      omega
    rw [hsplit]
    exact div_of_split (by omega)

/-- The weight of a cycle in the cycle-major layout, the row of its one by its place among the rows
of its address. -/
theorem atCycle_columnWeight (leftVec : List F) {q n i j col : Nat} (hj : j < n) :
    p.atCycle .CycleMajor p.K (q * n) (columnWeight leftVec n col) (i * n + j) =
      match p.addressAt (i * n + j) with
      | .none => 0
      | .some k => if j = col then leftVec.getD (k * q + i) 0 else 0 := by
  rw [atCycle]
  cases p.addressAt (i * n + j) with
  | none => rfl
  | some k =>
    have hindex : k * (q * n) + (i * n + j) = (k * q + i) * n + j := by ring
    simp only [DoryLayout.addressCycleToIndex, columnWeight, hindex, mod_of_split hj, div_of_split hj]

theorem columnDotProduct_eq (h : p.InRange) {q col : Nat} (hcol : col < g.numColumns)
    (hlayout : g.layout = .CycleMajor) (hq : p.nonzeroIndices.length = q * g.numColumns)
    (hleft : p.K * p.nonzeroIndices.length ≤ leftVec.length * g.numColumns) :
    p.columnDotProduct g leftVec col = .some (p.denseProduct g leftVec col) := by
  have hn : 0 < g.numColumns := by omega
  have hrows : p.nonzeroIndices.length / g.numColumns = q := by rw [hq, Nat.mul_div_cancel _ hn]
  have hR : p.K * q ≤ leftVec.length := by
    rw [hq, ← Nat.mul_assoc] at hleft
    exact Nat.le_of_mul_le_mul_right hleft hn
  have hterms : ((List.range' col q g.numColumns).zipIdx.mapM fun ((cycle, rowOffset) : Nat × Nat) =>
      (match p.nonzeroIndices[cycle]? with
      | .none => .none
      | .some .none => .some 0
      | .some (.some k) => leftVec[k * q + rowOffset]? : Option F)) =
      .some ((List.range' col q g.numColumns).zipIdx.map fun (x : Nat × Nat) => match p.addressAt x.1 with
        | .none => 0
        | .some k => leftVec.getD (k * q + x.2) 0) := by
    refine mapM_of_some ?_
    intro x hx
    obtain ⟨cycle, rowOffset⟩ := x
    obtain ⟨hlt, hcycle⟩ := List.getElem?_eq_some_iff.mp (List.mem_zipIdx_iff_getElem?.mp hx)
    rw [List.length_range'] at hlt
    rw [List.getElem_range'] at hcycle
    have hlt : rowOffset < q := hlt
    have hcycle : col + g.numColumns * rowOffset = cycle := hcycle
    have hin : cycle < p.nonzeroIndices.length := by
      rw [hq, ← hcycle, Nat.add_comm, Nat.mul_comm]
      exact split_lt hlt hcol
    simp only [addressAt, List.getD_eq_getElem _ _ hin, List.getElem?_eq_getElem hin]
    cases hk : p.nonzeroIndices[cycle] with
    | none => rfl
    | some k =>
      have hk := h k (hk ▸ List.getElem_mem hin)
      have hrow : k * q + rowOffset < leftVec.length := (split_lt hk hlt).trans_le hR
      simp only [List.getD_eq_getElem _ _ hrow, List.getElem?_eq_getElem hrow]
  rw [columnDotProduct]
  simp only [hrows]
  rw [hq, divCeil_column hcol, hterms]
  refine congrArg some ?_
  rw [denseProduct_eq g leftVec h hcol hleft, sum_zipIdx _ 0, List.length_range', hq, sum_range_mul]
  refine sum_congr rfl fun i hi => ?_
  rw [sum_eq_single_of_mem col (mem_range.mpr hcol) fun j hj hne => ?_]
  · have hget : (List.range' col q g.numColumns).getD i 0 = i * g.numColumns + col := by
      rw [List.getD_eq_getElem?_getD, List.getElem?_range' (mem_range.mp hi), Option.getD_some, Nat.add_comm,
        Nat.mul_comm]
    rw [hget, hlayout, atCycle_columnWeight leftVec hcol]
    cases p.addressAt (i * g.numColumns + col) with
    | none => rfl
    | some k => exact (if_pos rfl).symm
  · rw [hlayout, atCycle_columnWeight leftVec (mem_range.mp hj)]
    cases p.addressAt (i * g.numColumns + j) with
    | none => rfl
    | some k => exact if_neg hne

theorem fastProduct_eq (h : p.InRange) {q : Nat} (hlayout : g.layout = .CycleMajor)
    (hq : p.nonzeroIndices.length = q * g.numColumns) {result : List F} (hresult : result.length = g.numColumns)
    (hleft : p.K * p.nonzeroIndices.length ≤ leftVec.length * g.numColumns) :
    p.fastProduct g leftVec coeff result = .some (p.addProduct g leftVec coeff result) := by
  have hmap : p.fastProduct g leftVec coeff result =
      .some (result.zipIdx.map fun x => x.1 + coeff * p.denseProduct g leftVec x.2) := by
    rw [fastProduct]
    refine mapM_of_some ?_
    intro x hx
    obtain ⟨dest, col⟩ := x
    obtain ⟨hlt, -⟩ := List.getElem?_eq_some_iff.mp (List.mem_zipIdx_iff_getElem?.mp hx)
    simp only [columnDotProduct_eq g h (show col < g.numColumns by omega) hlayout hq hleft]
    rfl
  rw [hmap, addProduct, ← hresult]
  refine congrArg some (List.ext_getElem? fun i => ?_)
  by_cases hi : i < result.length
  · rw [getElem?_tableOf hi, List.getElem?_map, List.getElem?_zipIdx, List.getElem?_eq_getElem hi,
      List.getD_eq_getElem _ _ hi, Nat.zero_add]
    rfl
  · rw [List.getElem?_eq_none (by simpa using hi), List.getElem?_eq_none (by simpa using hi)]

theorem vectorMatrixProduct_eq (h : p.InRange) (hn : 0 < g.numColumns)
    (hdvd : g.layout = .CycleMajor → g.numColumns ≤ p.nonzeroIndices.length → g.numColumns ∣ p.nonzeroIndices.length)
    {result : List F} (hresult : result.length = g.numColumns)
    (hleft : p.K * p.nonzeroIndices.length ≤ leftVec.length * g.numColumns) :
    p.vectorMatrixProduct g leftVec coeff result = .some (p.addProduct g leftVec coeff result) := by
  rw [vectorMatrixProduct]
  by_cases hfast : g.layout = .CycleMajor ∧ p.nonzeroIndices.length ≥ g.numColumns
  · obtain ⟨q, hq⟩ := hdvd hfast.1 hfast.2
    rw [if_pos hfast, if_neg (by omega)]
    exact fastProduct_eq g coeff h hfast.1 (hq.trans (Nat.mul_comm _ _)) hresult hleft
  · rw [if_neg hfast, generalProduct_eq g coeff h hresult hleft]

end Product

/-! ## The rows of a commitment -/

section Rows

variable (g : DoryShape) {p}

theorem divCeil_mul {a b k : Nat} (hk : 0 < k) (hb : 0 < b) : divCeil (k * a) (k * b) = divCeil a b := by
  have hsplit : k * a + k * b - 1 = (a + b - 1) * k + (k - 1) := by
    rw [← Nat.mul_add, Nat.sub_mul, Nat.one_mul, Nat.mul_comm (a + b) k]
    have hle : k ≤ k * (a + b) := Nat.le_mul_of_pos_right k (by omega)
    omega
  rw [divCeil, divCeil, hsplit, ← Nat.div_div_eq_div_mul, div_of_split (by omega)]

/-- What `num_rows` needs of the globals: those of the address-major layout are of this `K`. -/
def FitsShape (p : OneHotPolynomial) : Prop :=
  g.layout = .AddressMajor → g.T ≠ 0 ∧ 0 < p.K ∧ g.maxNumRows * g.numColumns / g.T = p.K ∧ p.K ∣ g.numColumns

theorem numRows_eq (hn : 0 < g.numColumns) (hfits : p.FitsShape g) :
    p.numRows g = .some (divCeil (p.K * p.nonzeroIndices.length) g.numColumns) := by
  rw [numRows]
  cases hlayout : g.layout with
  | CycleMajor =>
    simp [guard, hn.ne', Nat.mul_comm]
  | AddressMajor =>
    obtain ⟨hT, hK, hmain, c, hc⟩ := hfits hlayout
    have hcpos : 0 < c := Nat.pos_of_ne_zero fun h0 => by rw [h0, Nat.mul_zero] at hc; omega
    have hdiv : g.numColumns / p.K = c := by rw [hc, Nat.mul_div_cancel_left _ hK]
    simp [DoryShape.addressMajorCyclesPerRow, guard, hT, hmain, hK.ne', hdiv, hcpos.ne']
    rw [hc, divCeil_mul hK hcpos]

/-- The columns of the ones in a row of the dense matrix. -/
def denseColumns (p : OneHotPolynomial) (row : Nat) : List Nat :=
  (List.range g.numColumns).filter fun col =>
    p.OneAt g.layout p.K p.nonzeroIndices.length (row * g.numColumns + col)

/-! ### The general path -/

/-- The column of a cycle's one, if it is in a row. -/
def columnAt (p : OneHotPolynomial) (row : Nat) (entry : Option Nat × Nat) : Option Nat :=
  match entry.1 with
  | .none => .none
  | .some k =>
    let index := g.layout.addressCycleToIndex k entry.2 p.K p.nonzeroIndices.length
    if index / g.numColumns = row then .some (index % g.numColumns) else .none

theorem getD_modify {α : Type} {l : List (List α)} {i j : Nat} (hj : j < l.length) (x : α) :
    (l.modify i (· ++ [x])).getD j [] = l.getD j [] ++ if i = j then [x] else [] := by
  rw [List.getD_eq_getElem?_getD, List.getElem?_modify, List.getElem?_eq_getElem hj, List.getD_eq_getElem _ _ hj]
  by_cases hij : i = j
  · simp only [if_pos hij, Option.map_eq_map, Option.map_some, Option.getD_some]
  · simp only [if_neg hij, Option.map_eq_map, Option.map_some, Option.getD_some, List.append_nil]

theorem foldl_rows (numRows : Nat) (entries : List (Option Nat × Nat)) {rows : List (List Nat)}
    (hrows : rows.length = numRows) {row : Nat} (hrow : row < numRows) :
    let final := entries.foldl (fun rows (k, cycle) =>
      match k with
      | .none => rows
      | .some k =>
        let globalIndex := g.layout.addressCycleToIndex k cycle p.K p.nonzeroIndices.length
        let rowIndex := globalIndex / g.numColumns
        let colIndex := globalIndex % g.numColumns
        if rowIndex < numRows then rows.modify rowIndex (· ++ [colIndex]) else rows) rows
    final.length = numRows ∧ final.getD row [] = rows.getD row [] ++ entries.filterMap (p.columnAt g row) := by
  induction entries generalizing rows with
  | nil => exact ⟨hrows, (List.append_nil _).symm⟩
  | cons entry entries ih =>
    obtain ⟨k, cycle⟩ := entry
    cases k with
    | none => exact ih hrows
    | some k =>
      simp only [List.foldl_cons, List.filterMap_cons, columnAt]
      generalize g.layout.addressCycleToIndex k cycle p.K p.nonzeroIndices.length = index
      by_cases hlt : index / g.numColumns < numRows
      · obtain ⟨hlen, hvalue⟩ := @ih (rows.modify (index / g.numColumns) (· ++ [index % g.numColumns]))
          ((List.length_modify ..).trans hrows)
        rw [getD_modify (by omega)] at hvalue
        simp only [if_pos hlt]
        refine ⟨hlen, hvalue.trans ?_⟩
        by_cases hhit : index / g.numColumns = row
        · simp only [if_pos hhit, List.append_assoc, List.singleton_append]
        · simp only [if_neg hhit, List.append_nil]
      · have hmiss : ¬ index / g.numColumns = row := by omega
        simp only [if_neg hlt, if_neg hmiss]
        exact ih hrows

theorem zipIdx_eq (l : List (Option Nat)) : l.zipIdx = (List.range l.length).map fun c => (l.getD c .none, c) := by
  refine List.ext_getElem? fun i => ?_
  by_cases hi : i < l.length
  · rw [List.getElem?_zipIdx, List.getElem?_map, List.getElem?_range hi, List.getElem?_eq_getElem hi,
      Option.map_some, Option.map_some, List.getD_eq_getElem _ _ hi, Nat.zero_add]
  · rw [List.getElem?_eq_none (by simpa using hi), List.getElem?_eq_none (by simpa using hi)]

theorem columnAt_iff (hn : 0 < g.numColumns) {row c col : Nat} :
    p.columnAt g row (p.addressAt c, c) = .some col ↔ col < g.numColumns ∧
      ∃ k, p.addressAt c = .some k ∧
        g.layout.addressCycleToIndex k c p.K p.nonzeroIndices.length = row * g.numColumns + col := by
  rw [columnAt]
  cases hk : p.addressAt c with
  | none =>
    constructor
    · intro hcol
      cases hcol
    · intro hcol
      obtain ⟨-, k, hk, -⟩ := hcol
      cases hk
  | some k =>
    simp only
    generalize hindex : g.layout.addressCycleToIndex k c p.K p.nonzeroIndices.length = index
    constructor
    · intro hcol
      by_cases hrow : index / g.numColumns = row
      · rw [if_pos hrow] at hcol
        have hmod := Option.some.inj hcol
        refine ⟨hmod ▸ Nat.mod_lt _ hn, k, rfl, ?_⟩
        rw [hindex, ← hrow, ← hmod, Nat.div_add_mod']
      · rw [if_neg hrow] at hcol
        cases hcol
    · intro hcol
      obtain ⟨hcol, k', hk', heq⟩ := hcol
      obtain rfl := Option.some.inj hk'
      rw [hindex] at heq
      rw [heq, div_of_split hcol, if_pos rfl, mod_of_split hcol]

theorem generalRow_perm (h : p.InRange) (hn : 0 < g.numColumns) (row : Nat) :
    (p.nonzeroIndices.zipIdx.filterMap (p.columnAt g row)).Perm (p.denseColumns g row) := by
  have hlist : p.nonzeroIndices.zipIdx.filterMap (p.columnAt g row) =
      (List.range p.nonzeroIndices.length).filterMap fun c => p.columnAt g row (p.addressAt c, c) := by
    rw [zipIdx_eq, List.filterMap_map]
    rfl
  rw [hlist, List.perm_ext_iff_of_nodup]
  · intro col
    rw [List.mem_filterMap, denseColumns, List.mem_filter, List.mem_range, decide_eq_true_eq]
    constructor
    · intro hcol
      obtain ⟨c, -, hcol⟩ := hcol
      obtain ⟨hcol, k, hk, hindex⟩ := (columnAt_iff g hn).mp hcol
      have hlt := p.addressAt_lt h hk
      refine ⟨hcol, ?_, ?_⟩
      · rw [← hindex]
        exact addressCycleToIndex_lt _ hlt.2 hlt.1
      · rw [← hindex, indexToAddressCycle_index _ hlt.2 hlt.1, hk]
    · intro hcol
      obtain ⟨hcol, -, hone⟩ := hcol
      exact ⟨_, List.mem_range.mpr (p.addressAt_lt h hone).1,
        (columnAt_iff g hn).mpr ⟨hcol, _, hone, addressCycleToIndex_index ..⟩⟩
  · refine List.Nodup.filterMap ?_ List.nodup_range
    intro c c' col hc hc'
    obtain ⟨-, k, hk, hindex⟩ := (columnAt_iff g hn).mp hc
    obtain ⟨-, k', hk', hindex'⟩ := (columnAt_iff g hn).mp hc'
    have hlt := p.addressAt_lt h hk
    have hlt' := p.addressAt_lt h hk'
    have hpair := indexToAddressCycle_index g.layout hlt.2 hlt.1
    rw [hindex, ← hindex', indexToAddressCycle_index g.layout hlt'.2 hlt'.1] at hpair
    exact (congrArg Prod.snd hpair).symm
  · exact List.nodup_range.filter _

theorem getD_replicate_nil (n i : Nat) : (List.replicate n ([] : List Nat)).getD i [] = [] := by
  by_cases hi : i < n
  · rw [List.getD_eq_getElem _ _ (by rwa [List.length_replicate]), List.getElem_replicate]
  · exact List.getD_eq_default _ _ (by rw [List.length_replicate]; omega)

theorem length_rowIndices (p : OneHotPolynomial) (numRows : Nat) : (p.rowIndices g numRows).length = numRows := by
  cases numRows with
  | zero =>
    rw [rowIndices]
    generalize p.nonzeroIndices.zipIdx = entries
    induction entries with
    | nil => rfl
    | cons entry entries ih =>
      obtain ⟨k, cycle⟩ := entry
      cases k with
      | none => exact ih
      | some k => exact ih
  | succ numRows =>
    exact (foldl_rows (p := p) g (numRows + 1) p.nonzeroIndices.zipIdx List.length_replicate (Nat.succ_pos numRows)).1

theorem rowIndices_perm (h : p.InRange) (hn : 0 < g.numColumns) {numRows row : Nat} (hrow : row < numRows) :
    ((p.rowIndices g numRows).getD row []).Perm (p.denseColumns g row) := by
  obtain ⟨-, hvalue⟩ := foldl_rows (p := p) g numRows p.nonzeroIndices.zipIdx
    (List.length_replicate (n := numRows) (a := ([] : List Nat))) hrow
  rw [getD_replicate_nil, List.nil_append] at hvalue
  exact (List.Perm.of_eq hvalue).trans (generalRow_perm g h hn row)

/-! ### The fast path -/

/-- The column of an entry of a chunk, if its address is the given one. -/
def columnOf (k : Nat) (entry : Option Nat × Nat) : Option Nat := if entry.1 = .some k then .some entry.2 else .none

theorem foldlM_perK (entries : List (Option Nat × Nat)) {perK : List (List Nat)}
    (hin : ∀ e ∈ entries, ∀ k, e.1 = .some k → k < perK.length) :
    ∃ final : List (List Nat), entries.foldlM (fun (perK : List (List Nat)) ((k, colIndex) : Option Nat × Nat) =>
        (match k with
        | .none => .some perK
        | .some k => if k < perK.length then .some (perK.modify k (· ++ [colIndex])) else .none :
          Option (List (List Nat)))) perK = .some final ∧
      final.length = perK.length ∧
      ∀ k < perK.length, final.getD k [] = perK.getD k [] ++ entries.filterMap (columnOf k) := by
  induction entries generalizing perK with
  | nil => exact ⟨perK, rfl, rfl, fun k _ => (List.append_nil _).symm⟩
  | cons entry entries ih =>
    obtain ⟨hhead, hrest⟩ := List.forall_mem_cons.mp hin
    obtain ⟨address, colIndex⟩ := entry
    cases address with
    | none =>
      obtain ⟨final, hfinal, hlen, hvalue⟩ := ih hrest
      exact ⟨final, hfinal, hlen, hvalue⟩
    | some a =>
      have ha := hhead a rfl
      have hlength : (perK.modify a (· ++ [colIndex])).length = perK.length := List.length_modify ..
      obtain ⟨final, hfinal, hlen, hvalue⟩ := @ih (perK.modify a (· ++ [colIndex])) (by rw [hlength]; exact hrest)
      refine ⟨final, ?_, hlen.trans hlength, ?_⟩
      · rw [List.foldlM_cons]
        simp only [if_pos ha]
        exact hfinal
      · intro k hk
        rw [hvalue k (by rwa [hlength]), getD_modify hk, List.filterMap_cons, columnOf]
        by_cases hhit : a = k
        · simp only [hhit, if_true, List.append_assoc, List.singleton_append]
        · have hmiss : ¬ (Option.some a = .some k) := fun heq => hhit (Option.some.inj heq)
          simp only [if_neg hhit, if_neg hmiss, List.append_nil]

theorem indicesPerK_eq {chunk : List (Option Nat)} (h : ∀ k, .some k ∈ chunk → k < p.K) :
    ∃ perK, p.indicesPerK chunk = .some perK ∧ perK.length = p.K ∧
      ∀ k < p.K, perK.getD k [] = (List.range chunk.length).filter fun col => chunk.getD col .none = .some k := by
  have hlength : (List.replicate p.K ([] : List Nat)).length = p.K := List.length_replicate
  obtain ⟨final, hfinal, hlen, hvalue⟩ := @foldlM_perK chunk.zipIdx (List.replicate p.K []) (by
    intro e he k hk
    rw [hlength]
    refine h k (hk ▸ ?_)
    obtain ⟨hlt, hget⟩ := List.getElem?_eq_some_iff.mp (List.mem_zipIdx_iff_getElem?.mp he)
    exact hget ▸ List.getElem_mem hlt)
  refine ⟨final, hfinal, hlen.trans hlength, ?_⟩
  intro k hk
  rw [hvalue k (by rwa [hlength]), getD_replicate_nil, List.nil_append, zipIdx_eq, List.filterMap_map, ← List.filterMap_eq_filter]
  refine List.filterMap_congr fun col _ => ?_
  simp only [Function.comp_apply, columnOf, Option.guard, decide_eq_true_eq]

theorem length_foldl_set {α : Type} (pairs : List (Nat × α)) (rows : List α) :
    (pairs.foldl (fun rows (i, w) => rows.set i w) rows).length = rows.length := by
  induction pairs generalizing rows with
  | nil => rfl
  | cons pair pairs ih => exact (ih _).trans List.length_set

theorem foldl_set {α : Type} (pairs : List (Nat × α)) {rows : List α} {j : Nat} {d v : α} (hj : j < rows.length)
    (hrows : rows.getD j d = v ∨ (j, v) ∈ pairs) (hpairs : ∀ w, (j, w) ∈ pairs → w = v) :
    (pairs.foldl (fun rows (i, w) => rows.set i w) rows).getD j d = v := by
  induction pairs generalizing rows with
  | nil => exact hrows.resolve_right nofun
  | cons pair pairs ih =>
    obtain ⟨i, w⟩ := pair
    have hlength : (rows.set i w).length = rows.length := List.length_set
    have hnext : (rows.set i w).getD j d = v ∨ (j, v) ∈ pairs := by
      by_cases hij : i = j
      · left
        subst hij
        rw [List.getD_eq_getElem _ _ (by rwa [hlength]), List.getElem_set_self]
        exact hpairs w (List.mem_cons_self ..)
      · rcases hrows with hrows | hrows
        · left
          rw [List.getD_eq_getElem _ _ (by rwa [hlength]), List.getElem_set_ne hij, ← hrows, List.getD_eq_getElem _ _ hj]
        · right
          rcases List.mem_cons.mp hrows with heq | hmem
          · exact absurd (congrArg Prod.fst heq).symm hij
          · exact hmem
    exact @ih (rows.set i w) (by rwa [hlength]) hnext fun w hw => hpairs w (List.mem_cons_of_mem _ hw)

/-- The rows a chunk writes, with their columns. -/
def chunkRows (rowsPerK : Nat) (chunk : List (List Nat) × Nat) : List (Nat × List Nat) :=
  chunk.1.zipIdx.map fun (columns, k) => (chunk.2 + k * rowsPerK, columns)

theorem mem_chunkRows {q n : Nat} {f : Nat → List (List Nat)} (hf : ∀ i, (f i).length = n) {j : Nat} {w : List Nat} :
    (j, w) ∈ (tableOf q f).zipIdx.flatMap (chunkRows q) ↔ ∃ i < q, ∃ k < n, j = i + k * q ∧ w = (f i).getD k [] := by
  rw [List.mem_flatMap]
  constructor
  · intro hmem
    obtain ⟨⟨perK, i⟩, hchunk, hrow⟩ := hmem
    obtain ⟨⟨columns, k⟩, hcolumns, heq⟩ := List.mem_map.mp hrow
    have hget : (tableOf q f)[i]? = .some perK := List.mem_zipIdx_iff_getElem?.mp hchunk
    have hcols : perK[k]? = .some columns := List.mem_zipIdx_iff_getElem?.mp hcolumns
    obtain ⟨hi, -⟩ := List.getElem?_eq_some_iff.mp hget
    rw [length_tableOf] at hi
    rw [getElem?_tableOf hi] at hget
    obtain rfl := Option.some.inj hget
    obtain ⟨hk, -⟩ := List.getElem?_eq_some_iff.mp hcols
    rw [hf] at hk
    cases heq
    refine ⟨i, hi, k, hk, rfl, ?_⟩
    rw [List.getD_eq_getElem?_getD, hcols, Option.getD_some]
  · intro hmem
    obtain ⟨i, hi, k, hk, rfl, rfl⟩ := hmem
    have hk' : k < (f i).length := (hf i).symm ▸ hk
    refine ⟨(f i, i), List.mem_zipIdx_iff_getElem?.mpr (getElem?_tableOf hi), ?_⟩
    refine List.mem_map.mpr ⟨((f i).getD k [], k), List.mem_zipIdx_iff_getElem?.mpr ?_, rfl⟩
    rw [List.getD_eq_getElem _ _ hk']
    exact List.getElem?_eq_getElem hk'

theorem chunkIndices_eq (h : p.InRange) {q : Nat} (hn : 0 < g.numColumns) (hlayout : g.layout = .CycleMajor)
    (hq : p.nonzeroIndices.length = q * g.numColumns) :
    ∃ rows, p.chunkIndices g (p.K * q) q = .some rows ∧ rows.length = p.K * q ∧
      ∀ row < p.K * q, rows.getD row [] = p.denseColumns g row := by
  have hcount : divCeil p.nonzeroIndices.length g.numColumns = q := by
    rw [hq]
    exact divCeil_column hn
  have hchunk : ∀ i, ∀ k, .some k ∈ (p.nonzeroIndices.drop (i * g.numColumns)).take g.numColumns → k < p.K :=
    fun i k hk => h k (List.mem_of_mem_drop (List.mem_of_mem_take hk))
  choose f hsome hlen hvalue using fun i => indicesPerK_eq (hchunk i)
  have hchunks : (List.range q).mapM (fun chunkIndex =>
      p.indicesPerK ((p.nonzeroIndices.drop (chunkIndex * g.numColumns)).take g.numColumns)) = .some (tableOf q f) :=
    mapM_range fun i _ => hsome i
  have hfold : (tableOf q f).zipIdx.foldl (fun rows ((perK, chunkIndex) : List (List Nat) × Nat) =>
      perK.zipIdx.foldl (fun rows (columns, k) => rows.set (chunkIndex + k * q) columns) rows)
      (List.replicate (p.K * q) []) =
      ((tableOf q f).zipIdx.flatMap (chunkRows q)).foldl (fun rows (i, w) => rows.set i w)
        (List.replicate (p.K * q) []) := by
    rw [List.foldl_flatMap]
    simp only [chunkRows, List.foldl_map]
  refine ⟨((tableOf q f).zipIdx.flatMap (chunkRows q)).foldl (fun rows (i, w) => rows.set i w)
    (List.replicate (p.K * q) []), ?_, (length_foldl_set _ _).trans List.length_replicate, ?_⟩
  · rw [chunkIndices, hcount, hchunks, Option.bind_eq_bind, Option.bind_some]
    exact congrArg some hfold
  · intro row hrow
    have hqpos : 0 < q := by
      rcases Nat.eq_zero_or_pos q with rfl | hpos
      · exact absurd hrow (by simp)
      · exact hpos
    have hi : row % q < q := Nat.mod_lt _ hqpos
    have hk : row / q < p.K := Nat.div_lt_of_lt_mul (by rwa [Nat.mul_comm])
    have hplace : row = row % q + row / q * q := by rw [Nat.add_comm, Nat.div_add_mod']
    have hunique : ∀ w, (row, w) ∈ (tableOf q f).zipIdx.flatMap (chunkRows q) →
        w = (f (row % q)).getD (row / q) [] := by
      intro w hw
      obtain ⟨i, hi, k, hk, hj, rfl⟩ := (mem_chunkRows hlen).mp hw
      rw [hj, Nat.add_comm, mod_of_split hi, div_of_split hi]
    have hwritten := (mem_chunkRows hlen).mpr ⟨_, hi, _, hk, hplace, rfl⟩
    rw [foldl_set _ (by rwa [List.length_replicate]) (.inr hwritten) hunique, hvalue _ _ hk, denseColumns]
    have hend : (row % q + 1) * g.numColumns ≤ q * g.numColumns := Nat.mul_le_mul_right _ hi
    have hwidth : ((p.nonzeroIndices.drop (row % q * g.numColumns)).take g.numColumns).length = g.numColumns := by
      rw [List.length_take, List.length_drop, hq, Nat.min_eq_left]
      rw [Nat.succ_mul] at hend
      omega
    rw [hwidth]
    refine List.filter_congr fun col hcol => ?_
    have hcol := List.mem_range.mp hcol
    have hcycle : row % q * g.numColumns + col < q * g.numColumns := split_lt hi hcol
    have hindex : row * g.numColumns + col = row / q * (q * g.numColumns) + (row % q * g.numColumns + col) := by
      conv_lhs => rw [hplace]
      ring
    have haddress : (List.take g.numColumns (List.drop (row % q * g.numColumns) p.nonzeroIndices)).getD col .none =
        p.addressAt (row % q * g.numColumns + col) := getD_take_drop _ _ hcol _
    have hone : p.OneAt g.layout p.K p.nonzeroIndices.length (row * g.numColumns + col) ↔
        p.addressAt (row % q * g.numColumns + col) = .some (row / q) := by
      rw [OneAt, hlayout, DoryLayout.indexToAddressCycle, hq, hindex, div_of_split hcycle, mod_of_split hcycle]
      exact and_iff_right (split_lt hk hcycle)
    rw [haddress]
    exact decide_eq_decide.mpr hone.symm

theorem commitRows_eq (h : p.InRange) (hn : 0 < g.numColumns) (hfits : p.FitsShape g)
    (hdvd : g.layout = .CycleMajor → g.numColumns ≤ p.nonzeroIndices.length → g.numColumns ∣ p.nonzeroIndices.length)
    {threads : Nat} (hthreads : 0 < threads) :
    ∃ rows, p.commitRows g threads = .some rows ∧
      rows.length = divCeil (p.K * p.nonzeroIndices.length) g.numColumns ∧
      ∀ row < rows.length, (rows.getD row []).Perm (p.denseColumns g row) := by
  rw [commitRows, numRows_eq g hn hfits]
  simp only [Option.bind_eq_bind, Option.bind_some, ne_eq, hn.ne', not_false_eq_true, guard_true, Option.pure_def]
  by_cases hfast : g.layout = .CycleMajor ∧ p.nonzeroIndices.length / g.numColumns ≥ threads
  · have hle : g.numColumns ≤ p.nonzeroIndices.length :=
      (Nat.div_pos_iff.mp (hthreads.trans_le hfast.2)).2
    obtain ⟨q, hq⟩ := hdvd hfast.1 hle
    rw [Nat.mul_comm] at hq
    have hdiv : p.nonzeroIndices.length / g.numColumns = q := by rw [hq, Nat.mul_div_cancel _ hn]
    have hrows : divCeil (p.K * p.nonzeroIndices.length) g.numColumns = p.K * q := by
      rw [hq, ← Nat.mul_assoc]
      exact divCeil_column hn
    obtain ⟨rows, hsome, hlen, hvalue⟩ := chunkIndices_eq g h hn hfast.1 hq
    rw [if_pos hfast, hdiv, hrows]
    refine ⟨rows, hsome, hlen, ?_⟩
    intro row hrow
    exact List.Perm.of_eq (hvalue row (hlen ▸ hrow))
  · rw [if_neg hfast]
    refine ⟨_, rfl, length_rowIndices g p _, ?_⟩
    intro row hrow
    rw [length_rowIndices] at hrow
    exact rowIndices_perm g h hn hrow

end Rows

/-! ## All of it -/

theorem le_of_log2 {n b : Nat} (h : log2 n = .some b) : n ≤ 2 ^ b := by
  rw [log2] at h
  by_cases hzero : n = 0
  · rw [if_pos hzero] at h
    cases h
  · rw [if_neg hzero] at h
    by_cases hpow : isPowerOfTwo n
    · obtain ⟨k, rfl⟩ := eq_pow_of_isPowerOfTwo hpow
      rw [if_pos hpow, Nat.log2_two_pow] at h
      obtain rfl := Option.some.inj h
      exact le_rfl
    · rw [if_neg hpow] at h
      obtain rfl := Option.some.inj h
      exact Nat.lt_log2_self.le

section Dense

variable {F C : Type} [JoltField F] [Challenge C F]

/-- **The operations are those of the dense matrix**, in either layout, where the columns divide the
cycles they do not outnumber and the globals of the address-major layout are of the polynomial's `K`:
the evaluation, the product, the columns a commitment adds up row by row, and each of the two fast
paths like the general one. -/
theorem one_hot_matches_dense (g : DoryShape) {p : OneHotPolynomial} (h : p.InRange) (hn : 0 < g.numColumns)
    (hfits : p.FitsShape g)
    (hdvd : g.layout = .CycleMajor → g.numColumns ≤ p.nonzeroIndices.length → g.numColumns ∣ p.nonzeroIndices.length) :
    (∀ (a b : Nat) (r : List C), log2 p.nonzeroIndices.length = .some b → p.K ≤ 2 ^ a → r.length = a + b →
      p.evaluate r = .some (∑ i ∈ range (2 ^ a * 2 ^ b),
        (p.denseCoeff g.layout (2 ^ a) (2 ^ b) i : F) * eqAt (layoutPoint g.layout a r) i)) ∧
    (∀ (leftVec : List F) (coeff : F) (result : List F), result.length = g.numColumns →
      p.K * p.nonzeroIndices.length ≤ leftVec.length * g.numColumns →
      p.vectorMatrixProduct g leftVec coeff result = .some (tableOf g.numColumns fun col =>
          result.getD col 0 + coeff * ∑ row ∈ range leftVec.length, leftVec.getD row 0 *
            p.denseCoeff g.layout p.K p.nonzeroIndices.length (row * g.numColumns + col)) ∧
        p.vectorMatrixProduct g leftVec coeff result = .some (p.generalProduct g leftVec coeff result)) ∧
    ∀ threads : Nat, 0 < threads → ∃ rows, p.commitRows g threads = .some rows ∧
      rows.length = divCeil (p.K * p.nonzeroIndices.length) g.numColumns ∧
      ∀ row < rows.length,
        (rows.getD row []).Perm ((List.range g.numColumns).filter fun col =>
          p.OneAt g.layout p.K p.nonzeroIndices.length (row * g.numColumns + col)) ∧
        (rows.getD row []).Perm ((p.rowIndices g rows.length).getD row []) := by
  refine ⟨?_, ?_, ?_⟩
  · intro a b r hb hK hlen
    exact p.evaluate_dense h hb (le_of_log2 hb) hK hlen
  · intro leftVec coeff result hresult hleft
    have hproduct := vectorMatrixProduct_eq g coeff h hn hdvd hresult hleft
    exact ⟨hproduct, hproduct.trans (congrArg some (generalProduct_eq g coeff h hresult hleft).symm)⟩
  · intro threads hthreads
    obtain ⟨rows, hsome, hlen, hperm⟩ := commitRows_eq g h hn hfits hdvd hthreads
    refine ⟨rows, hsome, hlen, ?_⟩
    intro row hrow
    exact ⟨hperm row hrow, (hperm row hrow).trans (rowIndices_perm g h hn hrow).symm⟩

end Dense

theorem one_hot_matches_dense_four :
    (⟨2, [.some 1, .none, .some 0, .none]⟩ : OneHotPolynomial).vectorMatrixProduct ⟨.CycleMajor, 2, 4, 4⟩
        ([1, 2, 3, 4] : List (ZMod 7)) 1 [0, 0] =
      .some ((⟨2, [.some 1, .none, .some 0, .none]⟩ : OneHotPolynomial).generalProduct ⟨.CycleMajor, 2, 4, 4⟩
        ([1, 2, 3, 4] : List (ZMod 7)) 1 [0, 0]) := by
  have hrange : (⟨2, [.some 1, .none, .some 0, .none]⟩ : OneHotPolynomial).InRange := by
    intro k hk
    simp only [List.mem_cons, Option.some.injEq, reduceCtorEq, List.not_mem_nil, or_false, false_or] at hk
    show k < 2
    omega
  exact ((@one_hot_matches_dense (ZMod 7) (ZMod 7) _ ⟨id⟩ ⟨.CycleMajor, 2, 4, 4⟩ _ hrange (by decide) nofun
    (fun _ _ => by decide)).2.1 [1, 2, 3, 4] 1 [0, 0] rfl (by decide)).2

/-- Two addresses over twelve cycles in rows of eight: the fast path puts the one at index 12 in the
first column. And four addresses over one cycle have rows shorter than a cycle in the address-major
layout, where `num_rows` divides by zero. -/
theorem one_hot_diverges :
    (⟨2, .some 1 :: List.replicate 11 .none⟩ : OneHotPolynomial).vectorMatrixProduct ⟨.CycleMajor, 8, 4, 12⟩
        ([0, 1, 0] : List (ZMod 7)) 1 (List.replicate 8 0) ≠
      .some ((⟨2, .some 1 :: List.replicate 11 .none⟩ : OneHotPolynomial).addProduct ⟨.CycleMajor, 8, 4, 12⟩
        ([0, 1, 0] : List (ZMod 7)) 1 (List.replicate 8 0)) ∧
    (⟨4, [.some 0]⟩ : OneHotPolynomial).commitRows ⟨.AddressMajor, 2, 2, 1⟩ 1 = .none := by
  decide

end OneHotPolynomial

end LightningJolt
