/-
The matrix that stage 8 opens: the witness polynomials of a padded trace and
the advice, each at its place, weighted by powers of one challenge. The joint
claim of the verifier is its evaluation, except for the selector of the advice
block, which the code finds by the values of the coordinates.
-/
import LightningJolt.EqIndex
import LightningJolt.HammingReduction
import LightningJolt.R1csInputs

namespace LightningJolt

open Finset

/-! ## Witness polynomials -/

/-- What the witness polynomials read of a cycle. -/
structure CycleWitness where
  rdInc : Int
  ramInc : Int
  lookupIndex : Nat
  pc : Nat
  ramAddress : Option Nat

/-- The cycle that pads a trace. -/
def CycleWitness.noOp : CycleWitness := ⟨0, 0, 0, 0, .none⟩

/-- `remap_address`: the outer `none` is the panic below the lowest address. -/
def remapAddress (address : Nat) (layout : MemoryLayout) : Option (Option Nat) :=
  let lowest := min layout.trustedAdviceStart layout.untrustedAdviceStart
  if address = 0 then .some .none
  else if lowest ≤ address then .some (.some ((address - lowest) / 8))
  else .none

def Cycle.witness (bytecode : BytecodePreprocessing) (layout : MemoryLayout) (c : Cycle) :
    Option CycleWitness := do
  let (pre, post) := c.rd.getD (0, 0)
  let lookupIndex ← c.toLookupIndex
  let pc ← bytecode.getPc c
  let ramAddress ← remapAddress c.ramAccess.address layout
  .some {
    rdInc := post.toNat - pre.toNat
    ramInc := match c.ramAccess with
      | .write w => w.postValue.toNat - w.preValue.toNat
      | _ => 0
    lookupIndex := lookupIndex.toNat
    pc := pc.toNat
    ramAddress }

/-- The increment of a dense polynomial. -/
def CycleWitness.inc (c : CycleWitness) : CommittedPolynomial → Int
  | .RdInc => c.rdInc
  | .RamInc => c.ramInc
  | _ => 0

namespace OneHotParams

variable (p : OneHotParams)

/-- `lookup_index_chunk`, `bytecode_pc_chunk`, `ram_address_chunk`: the `i`-th of `d` chunks. -/
def chunk (d i index : Nat) : Nat :=
  ((index >>> (p.logKChunk * (d - 1 - i))) &&& (2 ^ p.logKChunk - 1)) % 2 ^ 8

/-- The address of a one-hot polynomial in a cycle. -/
def chunkIndex (c : CycleWitness) : CommittedPolynomial → Option Nat
  | .InstructionRa i => .some (p.chunk p.instructionD i c.lookupIndex)
  | .BytecodeRa i => .some (p.chunk p.bytecodeD i c.pc)
  | .RamRa i => c.ramAddress.map (p.chunk p.ramD i)
  | _ => .none

theorem chunk_lt (d i index : Nat) : p.chunk d i index < 2 ^ p.logKChunk := by
  have h : (index >>> (p.logKChunk * (d - 1 - i))) &&& (2 ^ p.logKChunk - 1) < 2 ^ p.logKChunk := by
    rw [Nat.and_two_pow_sub_one_eq_mod]
    exact Nat.mod_lt _ (Nat.two_pow_pos _)
  exact Nat.lt_of_le_of_lt (Nat.mod_le _ _) h

theorem chunkIndex_lt {c : CycleWitness} {poly : CommittedPolynomial} {k : Nat}
    (h : p.chunkIndex c poly = .some k) : k < 2 ^ p.logKChunk := by
  cases poly with
  | InstructionRa i =>
    cases h
    exact p.chunk_lt _ _ _
  | BytecodeRa i =>
    cases h
    exact p.chunk_lt _ _ _
  | RamRa i =>
    obtain ⟨address, -, rfl⟩ := Option.map_eq_some_iff.mp h
    exact p.chunk_lt _ _ _
  | RdInc | RamInc | TrustedAdvice | UntrustedAdvice => cases h

end OneHotParams

/-! ## The point and the matrix -/

/-- `index_to_address_cycle`. -/
def DoryLayout.indexToAddressCycle (layout : DoryLayout) (index K T : Nat) : Nat × Nat :=
  match layout with
  | .CycleMajor => (index / T, index % T)
  | .AddressMajor => (index % K, index / K)

def AdviceKind.polynomial : AdviceKind → CommittedPolynomial
  | .Trusted => .TrustedAdvice
  | .Untrusted => .UntrustedAdvice

/-- What stage 8 opens: the configuration, the cycles of the trace that is given, the unified point
and the advice polynomials with their numbers of variables, which fit the main matrix. -/
structure JointOpening (C : Type) where
  params : OneHotParams
  logT : Nat
  traceLen : Nat
  layout : DoryLayout
  point : List C
  adviceVars : AdviceKind → Option Nat
  traceLen_le : traceLen ≤ 2 ^ logT
  length_point : point.length = params.logKChunk + logT
  cols_fit : ∀ kind vars, adviceVars kind = .some vars →
    (DoryGlobals.balancedSigmaNu vars).1 ≤ (DoryGlobals.mainSigmaNu params.logKChunk logT).1
  rows_fit : ∀ kind vars, adviceVars kind = .some vars →
    (DoryGlobals.balancedSigmaNu vars).2 ≤ (DoryGlobals.mainSigmaNu params.logKChunk logT).2

namespace JointOpening

variable {C : Type} (o : JointOpening C)

def logK : Nat := o.params.logKChunk
def sigma : Nat := (DoryGlobals.mainSigmaNu o.logK o.logT).1
def nu : Nat := (DoryGlobals.mainSigmaNu o.logK o.logT).2

theorem nu_add_sigma : o.nu + o.sigma = o.logK + o.logT := by
  simp only [nu, sigma, DoryGlobals.mainSigmaNu, DoryGlobals.balancedSigmaNu]
  omega

def rAddress : List C := o.point.take o.logK
def rCycle : List C := o.point.drop o.logK

/-- The coordinates in the order of the matrix index, lowest bit first. -/
def coordinates : List C := matrixCoordinates o.layout o.logK o.point

def rowPoint : List C := (o.coordinates.drop o.sigma).reverse
def colPoint : List C := (o.coordinates.take o.sigma).reverse

/-- The advice polynomials that are opened. -/
def advice : List AdviceKind := [.Trusted, .Untrusted].filter fun kind => (o.adviceVars kind).isSome

def adviceCols (kind : AdviceKind) : Nat := (DoryGlobals.balancedSigmaNu ((o.adviceVars kind).getD 0)).1
def adviceRows (kind : AdviceKind) : Nat := (DoryGlobals.balancedSigmaNu ((o.adviceVars kind).getD 0)).2

/-- The sub-point that addresses the block of an advice polynomial. -/
def advicePoint (kind : AdviceKind) : List C :=
  topLeftPoint o.sigma (o.adviceCols kind) (o.adviceRows kind) o.coordinates

/-- The other coordinates. -/
def outside (kind : AdviceKind) : List C :=
  (o.coordinates.take o.sigma).drop (o.adviceCols kind) ++
    (o.coordinates.drop o.sigma).drop (o.adviceRows kind)

/-- The polynomials of the joint claim, in the order of `verify_stage8`. -/
def polynomials : List CommittedPolynomial :=
  [.RamInc, .RdInc] ++ o.params.polynomialTypes ++ o.advice.map AdviceKind.polynomial

end JointOpening

/-- The trace as it is given and the coefficients of the advice. -/
structure JointWitness (F : Type) {C : Type} (o : JointOpening C) where
  trace : List CycleWitness
  advicePoly : AdviceKind → Nat → F
  length_trace : trace.length = o.traceLen

section Matrix

variable {F C : Type} [JoltField F] [Challenge C F] {o : JointOpening C}

namespace JointWitness

variable (w : JointWitness F o)

/-- The trace with the no-ops that pad it, whose polynomials the prover commits to. -/
def padded : List CycleWitness :=
  w.trace ++ List.replicate (2 ^ o.logT - w.trace.length) .noOp

def cycle (c : Nat) : CycleWitness := w.padded.getD c .noOp

/-- The coefficients of a dense polynomial. -/
def dense (poly : CommittedPolynomial) (c : Nat) : F := ((w.cycle c).inc poly : F)

/-- The coefficients of a one-hot polynomial. -/
def ra (poly : CommittedPolynomial) (k c : Nat) : F :=
  if o.params.chunkIndex (w.cycle c) poly = .some k then 1 else 0

/-! ### Claims -/

def denseClaim (poly : CommittedPolynomial) : F :=
  ∑ c ∈ range (2 ^ o.logT), eqAt (intoPoint o.rCycle) c * w.dense poly c

def raClaim (poly : CommittedPolynomial) : F :=
  ∑ k ∈ range (2 ^ o.logK), ∑ c ∈ range (2 ^ o.logT),
    eqAt (intoPoint o.rAddress) k * eqAt (intoPoint o.rCycle) c * w.ra poly k c

def adviceClaim (kind : AdviceKind) : F :=
  ∑ i ∈ range (2 ^ (o.adviceRows kind + o.adviceCols kind)),
    eqAt (intoPoint (o.advicePoint kind)) i * w.advicePoly kind i

/-- The evaluation of a committed polynomial at its own sub-point. -/
def claim : CommittedPolynomial → F
  | .RdInc => w.denseClaim .RdInc
  | .RamInc => w.denseClaim .RamInc
  | .TrustedAdvice => w.adviceClaim .Trusted
  | .UntrustedAdvice => w.adviceClaim .Untrusted
  | poly => w.raClaim poly

end JointWitness

/-- `EqPolynomial::zero_selector`. -/
def zeroSelector (r : List C) : F := (r.map fun x => 1 - (Challenge.into x : F)).prod

/-- `compute_advice_lagrange_factor`. -/
def computeAdviceLagrangeFactor [DecidableEq C] (openingPoint adviceOpeningPoint : List C) : F :=
  (openingPoint.map fun r => if r ∈ adviceOpeningPoint then 1 else 1 - (Challenge.into r : F)).prod

/-- The scaling factors of `verify_stage8`. -/
def JointOpening.scale [DecidableEq C] (o : JointOpening C) : CommittedPolynomial → F
  | .RamInc | .RdInc => zeroSelector o.rAddress
  | .TrustedAdvice => computeAdviceLagrangeFactor o.point (o.advicePoint .Trusted)
  | .UntrustedAdvice => computeAdviceLagrangeFactor o.point (o.advicePoint .Untrusted)
  | _ => 1

/-- The coefficient of a polynomial in the linear combination: one power of gamma, no polynomial
being claimed twice. -/
def JointOpening.coeff (o : JointOpening C) (gamma : F) (poly : CommittedPolynomial) : F :=
  gamma ^ o.polynomials.idxOf poly

/-- `joint_claim`: the scaled claims against the powers of gamma. -/
def JointOpening.jointClaim [DecidableEq C] (o : JointOpening C) (claims : CommittedPolynomial → F) (gamma : F) :
    F :=
  (o.polynomials.zipIdx.map fun q => gamma ^ q.2 * (claims q.1 * o.scale q.1)).sum

namespace JointWitness

variable (w : JointWitness F o) (gamma : F)

/-! ### Cells -/

/-- The trace polynomials at an address and a cycle: the dense ones are zero off the first address. -/
def traceCell (address cycle : Nat) : F :=
  (if address = 0 then
    o.coeff gamma .RamInc * w.dense .RamInc cycle + o.coeff gamma .RdInc * w.dense .RdInc cycle
  else 0) + (o.params.polynomialTypes.map fun poly => o.coeff gamma poly * w.ra poly address cycle).sum

/-- The advice polynomials, each in its block at the top left. -/
def adviceCell (row col : Nat) : F :=
  (o.advice.map fun kind =>
    if row < 2 ^ o.adviceRows kind ∧ col < 2 ^ o.adviceCols kind then
      o.coeff gamma kind.polynomial * w.advicePoly kind (row * 2 ^ o.adviceCols kind + col)
    else 0).sum

/-- The matrix of the linear combination. -/
def cell (row col : Nat) : F :=
  let place := o.layout.indexToAddressCycle (row * 2 ^ o.sigma + col) (2 ^ o.logK) (2 ^ o.logT)
  w.traceCell gamma place.1 place.2 + w.adviceCell gamma row col

/-- Its evaluation at the unified point. -/
def matrixEval : F :=
  ∑ row ∈ range (2 ^ o.nu), ∑ col ∈ range (2 ^ o.sigma),
    eqAt (intoPoint o.rowPoint) row * eqAt (intoPoint o.colPoint) col * w.cell gamma row col

end JointWitness

end Matrix

/-! ## The evaluation -/

section Lengths

variable {C : Type} (o : JointOpening C)

namespace JointOpening

theorem length_coordinates : o.coordinates.length = o.nu + o.sigma := by
  have hpoint : o.point.length = o.logK + o.logT := o.length_point
  rw [o.nu_add_sigma]
  cases hlayout : o.layout with
  | CycleMajor => simp only [coordinates, matrixCoordinates, hlayout, List.length_reverse, hpoint]
  | AddressMajor =>
    simp only [coordinates, matrixCoordinates, hlayout, List.length_reverse, List.length_append,
      List.length_drop, List.length_take, hpoint]
    omega

@[simp] theorem length_rowPoint : o.rowPoint.length = o.nu := by
  rw [rowPoint, List.length_reverse, List.length_drop, o.length_coordinates]
  omega

@[simp] theorem length_colPoint : o.colPoint.length = o.sigma := by
  rw [colPoint, List.length_reverse, List.length_take, o.length_coordinates]
  omega

@[simp] theorem length_rAddress : o.rAddress.length = o.logK := by
  rw [rAddress, List.length_take, o.length_point, logK]
  omega

@[simp] theorem length_rCycle : o.rCycle.length = o.logT := by
  rw [rCycle, List.length_drop, o.length_point, logK]
  omega

theorem rowPoint_append_colPoint : o.rowPoint ++ o.colPoint = o.coordinates.reverse := by
  rw [rowPoint, colPoint, ← List.reverse_append, List.take_append_drop]

theorem reverse_coordinates : o.coordinates.reverse = match o.layout with
    | .CycleMajor => o.rAddress ++ o.rCycle
    | .AddressMajor => o.rCycle ++ o.rAddress := by
  cases hlayout : o.layout with
  | CycleMajor =>
    simp only [coordinates, matrixCoordinates, hlayout, rAddress, rCycle]
    rw [List.reverse_reverse, List.take_append_drop]
  | AddressMajor =>
    simp only [coordinates, matrixCoordinates, hlayout, rAddress, rCycle]
    rw [List.reverse_reverse]

theorem two_pow_nu_mul : 2 ^ o.nu * 2 ^ o.sigma = 2 ^ o.logK * 2 ^ o.logT := by
  rw [← pow_add, ← pow_add, o.nu_add_sigma]

theorem adviceCols_le (kind : AdviceKind) : o.adviceCols kind ≤ o.sigma := by
  rw [adviceCols]
  cases hvars : o.adviceVars kind with
  | none => exact Nat.zero_le _
  | some vars => exact o.cols_fit kind vars hvars

theorem adviceRows_le (kind : AdviceKind) : o.adviceRows kind ≤ o.nu := by
  rw [adviceRows]
  cases hvars : o.adviceVars kind with
  | none => exact Nat.zero_le _
  | some vars => exact o.rows_fit kind vars hvars

end JointOpening

end Lengths

section Evaluation

variable {F C : Type} [JoltField F] [Challenge C F] {o : JointOpening C}

omit [JoltField F] in
@[simp] theorem length_intoPoint (point : List C) : (intoPoint point : List F).length = point.length :=
  List.length_map _

omit [JoltField F] in
theorem intoPoint_append (xs ys : List C) : (intoPoint (xs ++ ys) : List F) = intoPoint xs ++ intoPoint ys :=
  List.map_append

theorem eqAt_zero_intoPoint (r : List C) : eqAt (intoPoint r : List F) 0 = zeroSelector r := by
  rw [eqAt_zero, intoPoint, List.map_map]
  rfl

/-- A weight at an index that falls into the last coordinates. -/
theorem eqAt_low (xs ys : List C) {j : Nat} (hj : j < 2 ^ ys.length) :
    eqAt (intoPoint (xs ++ ys) : List F) j = zeroSelector xs * eqAt (intoPoint ys) j := by
  have h := eqAt_append (intoPoint xs : List F) (intoPoint ys) 0 (j := j) (by rwa [length_intoPoint])
  rw [Nat.zero_mul, Nat.zero_add, eqAt_zero_intoPoint] at h
  rw [intoPoint_append]
  exact h

theorem eqAt_split (xs ys : List C) (i : Nat) {j : Nat} (hj : j < 2 ^ ys.length) :
    eqAt (intoPoint (xs ++ ys) : List F) (i * 2 ^ ys.length + j) =
      eqAt (intoPoint xs) i * eqAt (intoPoint ys) j := by
  have h := eqAt_append (intoPoint xs : List F) (intoPoint ys) i (j := j) (by rwa [length_intoPoint])
  rw [length_intoPoint] at h
  rw [intoPoint_append]
  exact h

theorem zeroSelector_perm {xs ys : List C} (h : xs.Perm ys) : (zeroSelector xs : F) = zeroSelector ys :=
  (h.map _).prod_eq

theorem zeroSelector_append (xs ys : List C) :
    (zeroSelector (xs ++ ys) : F) = zeroSelector xs * zeroSelector ys := by
  rw [zeroSelector, List.map_append, List.prod_append]
  rfl

variable (o) in
/-- A sum over the matrix is a sum over addresses and cycles, in either layout. -/
theorem sum_matrix (g : Nat → Nat → F) :
    ∑ row ∈ range (2 ^ o.nu), ∑ col ∈ range (2 ^ o.sigma),
        eqAt (intoPoint o.rowPoint) row * eqAt (intoPoint o.colPoint) col *
          g (o.layout.indexToAddressCycle (row * 2 ^ o.sigma + col) (2 ^ o.logK) (2 ^ o.logT)).1
            (o.layout.indexToAddressCycle (row * 2 ^ o.sigma + col) (2 ^ o.logK) (2 ^ o.logT)).2 =
      ∑ k ∈ range (2 ^ o.logK), ∑ c ∈ range (2 ^ o.logT),
        eqAt (intoPoint o.rAddress) k * eqAt (intoPoint o.rCycle) c * g k c := by
  let h (n : Nat) : F := eqAt (intoPoint o.coordinates.reverse) n *
    g (o.layout.indexToAddressCycle n (2 ^ o.logK) (2 ^ o.logT)).1
      (o.layout.indexToAddressCycle n (2 ^ o.logK) (2 ^ o.logT)).2
  have hcell (row : Nat) (col : Nat) (hcol : col ∈ range (2 ^ o.sigma)) :
      eqAt (intoPoint o.rowPoint) row * eqAt (intoPoint o.colPoint) col *
          g (o.layout.indexToAddressCycle (row * 2 ^ o.sigma + col) (2 ^ o.logK) (2 ^ o.logT)).1
            (o.layout.indexToAddressCycle (row * 2 ^ o.sigma + col) (2 ^ o.logK) (2 ^ o.logT)).2 =
        h (row * 2 ^ o.sigma + col) := by
    have hsplit := eqAt_split (F := F) o.rowPoint o.colPoint row (j := col)
      (by rwa [o.length_colPoint, ← mem_range])
    rw [o.length_colPoint, o.rowPoint_append_colPoint] at hsplit
    rw [← hsplit]
  rw [sum_congr rfl fun row _ => sum_congr rfl (hcell row), ← sum_range_mul, o.two_pow_nu_mul]
  simp only [h, o.reverse_coordinates]
  cases o.layout with
  | CycleMajor =>
    rw [sum_range_mul]
    refine sum_congr rfl fun k _ => sum_congr rfl fun c hc => ?_
    have hc := mem_range.mp hc
    have hsplit := eqAt_split (F := F) o.rAddress o.rCycle k (j := c) (by rwa [o.length_rCycle])
    rw [o.length_rCycle] at hsplit
    simp only [DoryLayout.indexToAddressCycle, div_of_split hc, mod_of_split hc]
    rw [hsplit]
  | AddressMajor =>
    rw [Nat.mul_comm, sum_range_mul, sum_comm]
    refine sum_congr rfl fun k hk => sum_congr rfl fun c _ => ?_
    have hk := mem_range.mp hk
    have hsplit := eqAt_split (F := F) o.rCycle o.rAddress c (j := k) (by rwa [o.length_rAddress])
    rw [o.length_rAddress] at hsplit
    simp only [DoryLayout.indexToAddressCycle, div_of_split hk, mod_of_split hk]
    rw [hsplit, mul_comm (eqAt (intoPoint o.rCycle) c)]

end Evaluation

end LightningJolt
