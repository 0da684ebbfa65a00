/-
What the bindings of the rows of one-hot polynomials come to: the polynomial of one
family is the dense one in every round, and so are the polynomials over shared rows,
but for the copies that the third binding of the highest variable takes.
-/
import LightningJolt.RaPolynomials

namespace LightningJolt

variable {F : Type} [JoltField F]

/-! ## Scaled copies -/

theorem eqZero_eq (r : F) : eqZero r = 1 - r := by simp [eqZero, EqPolynomial.mle]

theorem eqOne_eq (r : F) : eqOne r = r := by simp [eqOne, EqPolynomial.mle]

theorem entryOf_map {table : List F} {index : Option Nat} {x : F} {g : F → F} (hg : g 0 = 0)
    (h : entryOf table index = .some x) : entryOf (table.map g) index = .some (g x) := by
  cases index with
  | none => cases h; rw [entryOf, hg]
  | some k =>
    rw [entryOf] at h ⊢
    rw [List.getElem?_map, h, Option.map_some]

theorem entry_map {table : List F} {lookupIndices : List (Option Nat)} {j : Nat} {x : F} {g : F → F}
    (hg : g 0 = 0) (h : entry table lookupIndices j = .some x) :
    entry (table.map g) lookupIndices j = .some (g x) := by
  obtain ⟨index, hindex, hx⟩ := Option.bind_eq_some_iff.mp h
  rw [entry, hindex]
  exact entryOf_map hg hx

theorem sharedEntry_map {p : OneHotParams} {tables : List (List F)} {indices : List RaIndices}
    {polyIdx j : Nat} {x : F} {g : F → F} (hg : g 0 = 0)
    (h : sharedEntry p tables indices polyIdx j = .some x) :
    sharedEntry p (tables.map (·.map g)) indices polyIdx j = .some (g x) := by
  obtain ⟨row, hrow, h⟩ := Option.bind_eq_some_iff.mp h
  obtain ⟨index, hindex, h⟩ := Option.bind_eq_some_iff.mp h
  rw [sharedEntry, hrow, Option.bind_eq_bind, Option.bind_some, hindex, Option.bind_eq_bind, Option.bind_some]
  cases index with
  | none => cases h; rw [hg]
  | some k =>
    obtain ⟨table, htable, h⟩ := Option.bind_eq_some_iff.mp h
    simp only [List.getElem?_map, htable, Option.map_some, Option.bind_eq_bind, Option.bind_some, h]

/-! ## Two and three variables bound -/

section Bound

variable (n : Nat) (r0 r1 r2 : F) (v : Nat → F) (j : Nat)

theorem bindFn2_highToLow : bindFn .highToLow n r1 (bindFn .highToLow (2 * n) r0 v) j =
    (1 - r0) * v j * (1 - r1) + (1 - r0) * v (j + n) * r1 + r0 * v (j + n * 2) * (1 - r1) +
      r0 * v (j + n * 3) * r1 := by
  simp only [bindFn, BindingOrder.pair, line]
  ring_nf

theorem bindFn2_lowToHigh : bindFn .lowToHigh n r1 (bindFn .lowToHigh (2 * n) r0 v) j =
    (1 - r0) * v (4 * j) * (1 - r1) + r0 * v (4 * j + 1) * (1 - r1) +
      (1 - r0) * v (4 * j + 2) * r1 + r0 * v (4 * j + 3) * r1 := by
  simp only [bindFn, BindingOrder.pair, line]
  ring_nf

theorem bindFn3_highToLow :
    bindFn .highToLow n r2 (bindFn .highToLow (2 * n) r1 (bindFn .highToLow (4 * n) r0 v)) j =
      (1 - r0) * v j * (1 - r1) * (1 - r2) + (1 - r0) * v (j + n) * (1 - r1) * r2 +
        (1 - r0) * v (j + n * 2) * r1 * (1 - r2) + (1 - r0) * v (j + n * 3) * r1 * r2 +
        r0 * v (j + n * 4) * (1 - r1) * (1 - r2) + r0 * v (j + n * 5) * (1 - r1) * r2 +
        r0 * v (j + n * 6) * r1 * (1 - r2) + r0 * v (j + n * 7) * r1 * r2 := by
  simp only [bindFn, BindingOrder.pair, line]
  ring_nf

theorem bindFn3_lowToHigh :
    bindFn .lowToHigh n r2 (bindFn .lowToHigh (2 * n) r1 (bindFn .lowToHigh (4 * n) r0 v)) j =
      (1 - r0) * v (8 * j) * (1 - r1) * (1 - r2) + r0 * v (8 * j + 1) * (1 - r1) * (1 - r2) +
        (1 - r0) * v (8 * j + 2) * r1 * (1 - r2) + r0 * v (8 * j + 3) * r1 * (1 - r2) +
        (1 - r0) * v (8 * j + 4) * (1 - r1) * r2 + r0 * v (8 * j + 5) * (1 - r1) * r2 +
        (1 - r0) * v (8 * j + 6) * r1 * r2 + r0 * v (8 * j + 7) * r1 * r2 := by
  simp only [bindFn, BindingOrder.pair, line]
  ring_nf

end Bound

/-! ## Reads of the scaled copies

What row `i` reads in a copy is `e a i`, or `e a b i` after two bindings, whichever representation
the rows have. -/

section Reads

variable {v : Nat → F} {n : Nat} {order : BindingOrder} {r0 r1 : F}

/-- A coefficient from the two copies of the first binding. -/
def readTwo (order : BindingOrder) (n : Nat) (r0 : F) (e : F → Nat → Option F) (j : Nat) : Option F := do
  let h0 ← e (eqZero r0) (order.pair n j).1
  let h1 ← e (eqOne r0) (order.pair n j).2
  .some (h0 + h1)

theorem readTwo_eq {e : F → Nat → Option F} (he : ∀ a, ∀ i < 2 * n, e a i = .some (a * v i)) {j : Nat} (hj : j < n) :
    readTwo order n r0 e j = .some (bindFn order n r0 v j) := by
  obtain ⟨hlow, hhigh⟩ := order.pair_lt hj
  rw [readTwo, he _ _ hlow, he _ _ hhigh, eqZero_eq, eqOne_eq]
  simp only [Option.bind_eq_bind, Option.bind_some, bindFn, line]
  congr 1
  ring

/-- A coefficient from the four copies of the first two. -/
def readFour (order : BindingOrder) (n : Nat) (r0 r1 : F) (e : F → F → Nat → Option F) (j : Nat) : Option F :=
  match order with
  | .highToLow => do
    let h00 ← e (eqZero r0) (eqZero r1) j
    let h01 ← e (eqZero r0) (eqOne r1) (j + n)
    let h10 ← e (eqOne r0) (eqZero r1) (j + n * 2)
    let h11 ← e (eqOne r0) (eqOne r1) (j + n * 3)
    .some (h00 + h10 + h01 + h11)
  | .lowToHigh => do
    let h00 ← e (eqZero r0) (eqZero r1) (4 * j)
    let h10 ← e (eqOne r0) (eqZero r1) (4 * j + 1)
    let h01 ← e (eqZero r0) (eqOne r1) (4 * j + 2)
    let h11 ← e (eqOne r0) (eqOne r1) (4 * j + 3)
    .some (h00 + h10 + h01 + h11)

theorem readFour_eq {e : F → F → Nat → Option F} (he : ∀ a b, ∀ i < 4 * n, e a b i = .some (a * v i * b)) {j : Nat}
    (hj : j < n) : readFour order n r0 r1 e j = .some (bindFn order n r1 (bindFn order (2 * n) r0 v) j) := by
  cases order with
  | highToLow =>
    rw [readFour, he _ _ j (by omega), he _ _ (j + n) (by omega), he _ _ (j + n * 2) (by omega),
      he _ _ (j + n * 3) (by omega), bindFn2_highToLow, eqZero_eq, eqZero_eq, eqOne_eq, eqOne_eq]
    simp only [Option.bind_eq_bind, Option.bind_some]
    congr 1
    ring
  | lowToHigh =>
    rw [readFour, he _ _ (4 * j) (by omega), he _ _ (4 * j + 1) (by omega), he _ _ (4 * j + 2) (by omega),
      he _ _ (4 * j + 3) (by omega), bindFn2_lowToHigh, eqZero_eq, eqZero_eq, eqOne_eq, eqOne_eq]
    rfl

end Reads

/-! ## Dense runs of one, two and three bindings -/

namespace DensePolynomial

variable (order : BindingOrder) (n : Nat) (v : Nat → F) (r0 r1 r2 : F)

theorem bindAll_one : bindAll order (tableOf (8 * n) v) [r0] = tableOf (4 * n) (bindFn order (4 * n) r0 v) := by
  rw [bindAll, List.foldl_cons, List.foldl_nil, show 8 * n = 2 * (4 * n) by ring, bind_tableOf]

theorem bindAll_two : bindAll order (tableOf (8 * n) v) [r0, r1] =
    tableOf (2 * n) (bindFn order (2 * n) r1 (bindFn order (4 * n) r0 v)) := by
  have hfirst := bindAll_one order n v r0
  rw [bindAll, List.foldl_cons, List.foldl_nil] at hfirst
  rw [bindAll, List.foldl_cons, hfirst, List.foldl_cons, List.foldl_nil]
  rw [show tableOf (4 * n) (bindFn order (4 * n) r0 v) =
    tableOf (2 * (2 * n)) (bindFn order (4 * n) r0 v) by ring_nf, bind_tableOf]

theorem bindAll_three : bindAll order (tableOf (8 * n) v) [r0, r1, r2] =
    tableOf n (bindFn order n r2 (bindFn order (2 * n) r1 (bindFn order (4 * n) r0 v))) := by
  have hsecond := bindAll_two order n v r0 r1
  rw [bindAll, List.foldl_cons, List.foldl_cons, List.foldl_nil] at hsecond
  rw [bindAll, List.foldl_cons, List.foldl_cons, hsecond, List.foldl_cons, List.foldl_nil, bind_tableOf]

end DensePolynomial

/-! ## One polynomial -/

section One

variable {table : List F} {lookupIndices : List (Option Nat)} {v : Nat → F} {n : Nat}
  {order : BindingOrder} {r0 r1 r2 : F}

theorem getBoundCoeff_round2 (hlen : lookupIndices.length = 2 * n)
    (hv : ∀ i < 2 * n, entry table lookupIndices i = .some (v i)) {j : Nat} (hj : j < n) :
    ((⟨table, lookupIndices⟩ : RaPolynomialRound1 F).bind r0 order).getBoundCoeff j =
      .some (bindFn order n r0 v j) := by
  have hmid : lookupIndices.length / 2 = n := by omega
  rw [← readTwo_eq (fun a i hi => entry_map (mul_zero a) (hv i hi)) hj]
  cases order with
  | highToLow =>
    simp only [RaPolynomialRound2.getBoundCoeff, RaPolynomialRound1.bind, hmid]
    rfl
  | lowToHigh => rfl

/-- The state after two bindings. -/
def thirdRound (table : List F) (lookupIndices : List (Option Nat)) (order : BindingOrder) (r0 r1 : F) :
    RaPolynomialRound3 F where
  table00 := (table.map (eqZero r0 * ·)).map (· * eqZero r1)
  table01 := (table.map (eqZero r0 * ·)).map (· * eqOne r1)
  table10 := (table.map (eqOne r0 * ·)).map (· * eqZero r1)
  table11 := (table.map (eqOne r0 * ·)).map (· * eqOne r1)
  lookupIndices := lookupIndices
  bindingOrder := order

theorem bind_bind :
    ((⟨table, lookupIndices⟩ : RaPolynomialRound1 F).bind r0 order).bind r1 order =
      .some (thirdRound table lookupIndices order r0 r1) := by
  rw [RaPolynomialRound2.bind, if_pos (by rfl)]
  rfl

/-- A table scaled twice. -/
theorem entry_map2 {j : Nat} {x a b : F} (h : entry table lookupIndices j = .some x) :
    entry ((table.map (a * ·)).map (· * b)) lookupIndices j = .some (a * x * b) :=
  entry_map (zero_mul b) (entry_map (mul_zero a) h)

theorem getBoundCoeff_round3 (hlen : lookupIndices.length = 4 * n)
    (hv : ∀ i < 4 * n, entry table lookupIndices i = .some (v i)) {j : Nat} (hj : j < n) :
    (thirdRound table lookupIndices order r0 r1).getBoundCoeff j =
      .some (bindFn order n r1 (bindFn order (2 * n) r0 v) j) := by
  have hquarter : lookupIndices.length / 4 = n := by omega
  rw [← readFour_eq (fun a b i hi => entry_map2 (hv i hi)) hj]
  cases order with
  | highToLow =>
    simp only [RaPolynomialRound3.getBoundCoeff, thirdRound, hquarter]
    rfl
  | lowToHigh => rfl

/-- A table scaled three times. -/
theorem entry_map3 {j : Nat} {x a b c : F} (h : entry table lookupIndices j = .some x) :
    entry (((table.map (a * ·)).map (· * b)).map (· * c)) lookupIndices j = .some (a * x * b * c) :=
  entry_map (zero_mul c) (entry_map2 h)

theorem materialize_eq (hlen : lookupIndices.length = 8 * n)
    (hv : ∀ i < 8 * n, entry table lookupIndices i = .some (v i)) {j : Nat} (hj : j < n) :
    (thirdRound table lookupIndices order r0 r1).materialize r2 j =
      .some (bindFn order n r2 (bindFn order (2 * n) r1 (bindFn order (4 * n) r0 v)) j) := by
  have heighth : lookupIndices.length / 8 = n := by omega
  cases order with
  | highToLow =>
    simp only [RaPolynomialRound3.materialize, thirdRound, heighth, entry_map3 (hv j (by omega)),
      entry_map3 (hv (j + n) (by omega)), entry_map3 (hv (j + n * 2) (by omega)),
      entry_map3 (hv (j + n * 3) (by omega)), entry_map3 (hv (j + n * 4) (by omega)),
      entry_map3 (hv (j + n * 5) (by omega)), entry_map3 (hv (j + n * 6) (by omega)),
      entry_map3 (hv (j + n * 7) (by omega)), Option.bind_eq_bind, Option.bind_some, eqZero_eq, eqOne_eq,
      bindFn3_highToLow]
    congr 1
    ring
  | lowToHigh =>
    simp only [RaPolynomialRound3.materialize, thirdRound, entry_map3 (hv (8 * j) (by omega)),
      entry_map3 (hv (8 * j + 1) (by omega)), entry_map3 (hv (8 * j + 2) (by omega)),
      entry_map3 (hv (8 * j + 3) (by omega)), entry_map3 (hv (8 * j + 4) (by omega)),
      entry_map3 (hv (8 * j + 5) (by omega)), entry_map3 (hv (8 * j + 6) (by omega)),
      entry_map3 (hv (8 * j + 7) (by omega)), Option.bind_eq_bind, Option.bind_some, eqZero_eq, eqOne_eq,
      bindFn3_lowToHigh]
    congr 1
    ring

end One

/-! ## Shared rows -/

section Shared

variable {p : OneHotParams} {tables : List (List F)} {indices : List RaIndices} {numPolys polyIdx : Nat}
  {v : Nat → F} {n : Nat} {order : BindingOrder} {r0 r1 r2 : F}

theorem getBoundCoeff_sharedRound2 (hlen : indices.length = 2 * n)
    (hv : ∀ i < 2 * n, sharedEntry p tables indices polyIdx i = .some (v i)) {j : Nat} (hj : j < n) :
    ((⟨tables, indices, numPolys, p⟩ : SharedRaRound1 F).bind r0 order).getBoundCoeff polyIdx j =
      .some (bindFn order n r0 v j) := by
  have hmid : indices.length / 2 = n := by omega
  rw [← readTwo_eq (fun a i hi => sharedEntry_map (mul_zero a) (hv i hi)) hj]
  cases order with
  | highToLow =>
    simp only [SharedRaRound2.getBoundCoeff, SharedRaRound1.bind, hmid]
    rfl
  | lowToHigh => rfl

/-- The state after two bindings. -/
def sharedThirdRound (p : OneHotParams) (tables : List (List F)) (indices : List RaIndices)
    (numPolys : Nat) (order : BindingOrder) (r0 r1 : F) : SharedRaRound3 F where
  tables00 := (tables.map (·.map (eqZero r0 * ·))).map (·.map (· * eqZero r1))
  tables01 := (tables.map (·.map (eqZero r0 * ·))).map (·.map (· * eqOne r1))
  tables10 := (tables.map (·.map (eqOne r0 * ·))).map (·.map (· * eqZero r1))
  tables11 := (tables.map (·.map (eqOne r0 * ·))).map (·.map (· * eqOne r1))
  indices := indices
  numPolys := numPolys
  oneHotParams := p
  bindingOrder := order

theorem shared_bind_bind :
    ((⟨tables, indices, numPolys, p⟩ : SharedRaRound1 F).bind r0 order).bind r1 order =
      .some (sharedThirdRound p tables indices numPolys order r0 r1) := by
  rw [SharedRaRound2.bind, if_pos (by rfl)]
  rfl

theorem sharedEntry_map2 {j : Nat} {x a b : F} (h : sharedEntry p tables indices polyIdx j = .some x) :
    sharedEntry p ((tables.map (·.map (a * ·))).map (·.map (· * b))) indices polyIdx j = .some (a * x * b) :=
  sharedEntry_map (zero_mul b) (sharedEntry_map (mul_zero a) h)

theorem getBoundCoeff_sharedRound3 (hlen : indices.length = 4 * n)
    (hv : ∀ i < 4 * n, sharedEntry p tables indices polyIdx i = .some (v i)) {j : Nat} (hj : j < n) :
    (sharedThirdRound p tables indices numPolys order r0 r1).getBoundCoeff polyIdx j =
      .some (bindFn order n r1 (bindFn order (2 * n) r0 v) j) := by
  have hquarter : indices.length / 4 = n := by omega
  rw [← readFour_eq (fun a b i hi => sharedEntry_map2 (hv i hi)) hj]
  cases order with
  | highToLow =>
    -- the same copies in the same order, summed in another
    simp only [SharedRaRound3.getBoundCoeff, sharedThirdRound, hquarter, readFour, Nat.add_comm _ j, Nat.mul_comm _ n,
      add_right_comm]
  | lowToHigh => rfl

theorem sharedEntry_map3 {j : Nat} {x a b c : F} (h : sharedEntry p tables indices polyIdx j = .some x) :
    sharedEntry p (((tables.map (·.map (a * ·))).map (·.map (· * b))).map (·.map (· * c))) indices polyIdx j =
      .some (a * x * b * c) :=
  sharedEntry_map (zero_mul c) (sharedEntry_map2 h)

/-- The position of the index that a copy is for, over eight times `n` rows. -/
def groupAt (order : BindingOrder) (n j offset : Nat) : Nat :=
  match order with
  | .lowToHigh => 8 * j + offset
  | .highToLow => offset * n + j

theorem groupAt_lt {j offset : Nat} (hj : j < n) (ho : offset < 8) : groupAt order n j offset < 8 * n := by
  cases order with
  | lowToHigh => rw [groupAt]; omega
  | highToLow => rw [groupAt]; nlinarith

/-- The coefficient that the third binding of shared rows makes. -/
def sharedCoeff (order : BindingOrder) (n : Nat) (r0 r1 r2 : F) (v : Nat → F) (j : Nat) : F :=
  let x := fun offset => v (groupAt order n j offset)
  (1 - r0) * x 0 * (1 - r1) * (1 - r2) + r0 * x 1 * (1 - r1) * (1 - r2) +
    (1 - r0) * x 2 * r1 * (1 - r2) + r0 * x 3 * r1 * (1 - r2) + (1 - r0) * x 4 * (1 - r1) * r2 +
    r0 * x 5 * (1 - r1) * r2 + (1 - r0) * x 6 * r1 * r2 + r0 * x 7 * r1 * r2

theorem shared_materialize (hlen : indices.length = 8 * n)
    (hv : ∀ i < 8 * n, sharedEntry p tables indices polyIdx i = .some (v i)) {j : Nat} (hj : j < n) :
    (sharedThirdRound p tables indices numPolys order r0 r1).materialize r2 polyIdx j =
      .some (sharedCoeff order n r0 r1 r2 v j) := by
  have heighth : indices.length / 8 = n := by omega
  have hpos : (sharedThirdRound p tables indices numPolys order r0 r1).groupPosition j =
      groupAt order n j := by
    funext offset
    cases order <;> simp only [SharedRaRound3.groupPosition, sharedThirdRound, groupAt, heighth]
  have hx : ∀ offset < 8, sharedEntry p tables indices polyIdx (groupAt order n j offset) =
      .some (v (groupAt order n j offset)) := fun offset ho => hv _ (groupAt_lt hj ho)
  have hrange : List.range 8 = [0, 1, 2, 3, 4, 5, 6, 7] := rfl
  rw [SharedRaRound3.materialize, hrange, hpos]
  simp only [List.mapM_cons, List.mapM_nil, SharedRaRound3.tableGroups, List.getElem?_cons_succ,
    List.getElem?_cons_zero, Option.bind_eq_bind, Option.bind_some, Option.pure_def, sharedThirdRound,
    sharedEntry_map3 (hx 0 (by omega)), sharedEntry_map3 (hx 1 (by omega)),
    sharedEntry_map3 (hx 2 (by omega)), sharedEntry_map3 (hx 3 (by omega)),
    sharedEntry_map3 (hx 4 (by omega)), sharedEntry_map3 (hx 5 (by omega)),
    sharedEntry_map3 (hx 6 (by omega)), sharedEntry_map3 (hx 7 (by omega)),
    eqZero_eq, eqOne_eq, List.sum_cons, List.sum_nil, sharedCoeff]
  congr 1
  ring

theorem sharedCoeff_lowToHigh (j : Nat) : sharedCoeff .lowToHigh n r0 r1 r2 v j =
    bindFn .lowToHigh n r2 (bindFn .lowToHigh (2 * n) r1 (bindFn .lowToHigh (4 * n) r0 v)) j := by
  rw [bindFn3_lowToHigh]
  rfl

/-- Of the highest variable, the copies for the first and the third challenge are taken for
each other. -/
theorem sharedCoeff_highToLow (j : Nat) : sharedCoeff .highToLow n r0 r1 r2 v j =
    bindFn .highToLow n r2 (bindFn .highToLow (2 * n) r1 (bindFn .highToLow (4 * n) r0 v)) j +
      (r0 - r2) * ((1 - r1) * (v (n + j) - v (4 * n + j)) + r1 * (v (3 * n + j) - v (6 * n + j))) := by
  rw [bindFn3_highToLow]
  simp only [sharedCoeff, groupAt, Nat.zero_mul, Nat.one_mul, Nat.zero_add]
  simp only [Nat.mul_comm n, Nat.add_comm j]
  ring

end Shared

/-! ## Whole runs -/

namespace RaPolynomial

def bindAll (order : BindingOrder) (s : RaPolynomial F) (rs : List F) : Option (RaPolynomial F) :=
  rs.foldlM (bindParallel order) s

/-- What is read off a polynomial is what is read off dense coefficients. -/
structure Shows (s : RaPolynomial F) (Z : List F) : Prop where
  len : s.len = Z.length
  coeff : ∀ j < Z.length, s.getBoundCoeff j = Z[j]?
  evals : ∀ index < Z.length / 2, ∀ degree order, sumcheckEvals s.getBoundCoeff s.len index degree order =
    sumcheckEvals (Z[·]?) Z.length index degree order
  claim : Z.length = 1 → s.finalSumcheckClaim = DensePolynomial.finalSumcheckClaim Z

/-- After any number of the bindings the polynomial is the dense one. -/
def Exact (lookupIndices : List (Option Nat)) (eqEvals : List F) (order : BindingOrder) (Z rs : List F) : Prop :=
  ∀ rs', rs' <+: rs → ∃ s, (new lookupIndices eqEvals).bindAll order rs' = .some s ∧
    s.Shows (DensePolynomial.bindAll order Z rs')

theorem Shows.of_table {s : RaPolynomial F} {len : Nat} {f : Nat → F} (hlen : s.len = len)
    (h : ∀ j < len, s.getBoundCoeff j = .some (f j)) (hone : len ≠ 1) : s.Shows (tableOf len f) where
  len := by rw [length_tableOf, hlen]
  coeff := by
    intro j hj
    rw [length_tableOf] at hj
    rw [h j hj, getElem?_tableOf hj]
  evals := by
    intro index hindex degree order
    rw [length_tableOf] at hindex ⊢
    rw [hlen]
    exact sumcheckEvals_congr (fun i hi => by rw [h i hi, getElem?_tableOf hi]) hindex degree order
  claim := by
    intro h1
    rw [length_tableOf] at h1
    exact absurd h1 hone

theorem Shows.roundN (Z : List F) : (RaPolynomial.roundN Z).Shows Z :=
  ⟨rfl, fun _ _ => rfl, fun _ _ _ _ => rfl, fun _ => rfl⟩

theorem bindAll_roundN (order : BindingOrder) (rs Z : List F) :
    (RaPolynomial.roundN Z).bindAll order rs = .some (.roundN (DensePolynomial.bindAll order Z rs)) := by
  induction rs generalizing Z with
  | nil => rfl
  | cons r rs ih => exact ih (DensePolynomial.bind order Z r)

/-- The entries of the rows, by the function that lists them. -/
theorem entry_of_dense {lookupIndices : List (Option Nat)} {table Z : List F}
    (h : dense lookupIndices table = .some Z) {i : Nat} (hi : i < lookupIndices.length) :
    entry table lookupIndices i = .some (Z.getD i 0) := by
  have hat : (lookupIndices.map (entryOf table))[i]? = (Z.map Option.some)[i]? := by
    rw [map_eq_of_mapM h]
  rw [List.getElem?_map, List.getElem?_map, List.getElem?_eq_getElem hi] at hat
  rw [entry, List.getElem?_eq_getElem hi, List.getD_eq_getElem?_getD]
  cases hz : Z[i]? with
  | none => rw [hz] at hat; cases hat
  | some z =>
    rw [hz] at hat
    exact Option.some.inj hat

theorem bindAll_two (table : List F) (lookupIndices : List (Option Nat)) (order : BindingOrder) (r0 r1 : F) :
    (new lookupIndices table).bindAll order [r0, r1] =
      .some (.round3 (thirdRound table lookupIndices order r0 r1)) := by
  simp only [new, bindAll, List.foldlM_cons, List.foldlM_nil, bindParallel, Option.bind_eq_bind,
    Option.bind_some, bind_bind, Option.map_some, Option.pure_def]

theorem bindAll_three {lookupIndices : List (Option Nat)} {table : List F} {v : Nat → F} {k : Nat}
    (hlen : lookupIndices.length = 8 * 2 ^ k) (order : BindingOrder)
    (hv : ∀ i < 8 * 2 ^ k, entry table lookupIndices i = .some (v i)) (r0 r1 r2 : F) :
    (new lookupIndices table).bindAll order [r0, r1, r2] =
      .some (.roundN (DensePolynomial.bindAll order (tableOf (8 * 2 ^ k) v) [r0, r1, r2])) := by
  have hmaterialize : (thirdRound table lookupIndices order r0 r1).bind r2 =
      .some (DensePolynomial.bindAll order (tableOf (8 * 2 ^ k) v) [r0, r1, r2]) := by
    rw [RaPolynomialRound3.bind, show (thirdRound table lookupIndices order r0 r1).lookupIndices.length / 8 = 2 ^ k by
      simp only [thirdRound]; omega, mapM_range fun j hj => materialize_eq hlen hv hj, Option.bind_eq_bind,
      Option.bind_some, DensePolynomial.new_tableOf, DensePolynomial.bindAll_three]
  have happ : [r0, r1, r2] = [r0, r1] ++ [r2] := rfl
  rw [bindAll, happ, List.foldlM_append, ← bindAll, bindAll_two]
  simp only [Option.bind_eq_bind, Option.bind_some, List.foldlM_cons, List.foldlM_nil, bindParallel,
    hmaterialize, Option.map_some, Option.pure_def]
  rfl

theorem exact_of_entries {lookupIndices : List (Option Nat)} {table : List F} {v : Nat → F} {k : Nat}
    (hlen : lookupIndices.length = 8 * 2 ^ k) (order : BindingOrder)
    (hv : ∀ i < 8 * 2 ^ k, entry table lookupIndices i = .some (v i)) (rs : List F) :
    Exact lookupIndices table order (tableOf (8 * 2 ^ k) v) rs := by
  have hpos : 0 < 2 ^ k := Nat.two_pow_pos k
  rintro rs' -
  match rs' with
  | [] => exact ⟨_, rfl, .of_table hlen (fun j hj => hv j hj) (by omega)⟩
  | [r0] =>
    rw [DensePolynomial.bindAll_one]
    exact ⟨_, rfl, .of_table (by simp only [len, RaPolynomialRound1.bind]; omega)
      (fun j hj => getBoundCoeff_round2 (by omega) (fun i hi => hv i (by omega)) hj) (by omega)⟩
  | [r0, r1] =>
    rw [DensePolynomial.bindAll_two]
    refine ⟨_, bindAll_two table lookupIndices order r0 r1, .of_table ?_ ?_ (by omega)⟩
    · simp only [len, thirdRound]
      omega
    · refine fun j hj => ?_
      rw [getBoundCoeff, getBoundCoeff_round3 (n := 2 * 2 ^ k) (by omega) (fun i hi => hv i (by omega)) hj]
      congr 3
      omega
  | r0 :: r1 :: r2 :: rest =>
    have happ : r0 :: r1 :: r2 :: rest = [r0, r1, r2] ++ rest := rfl
    refine ⟨.roundN (DensePolynomial.bindAll order (tableOf (8 * 2 ^ k) v) (r0 :: r1 :: r2 :: rest)), ?_,
      .roundN _⟩
    rw [happ, bindAll, List.foldlM_append, ← bindAll, bindAll_three hlen order hv,
      DensePolynomial.bindAll_append]
    exact bindAll_roundN order rest _

/-- The rows of one family are their dense polynomial in every round. -/
theorem exact {lookupIndices : List (Option Nat)} {table Z : List F} {k : Nat}
    (h : dense lookupIndices table = .some Z) (hlen : lookupIndices.length = 2 ^ (k + 3))
    (order : BindingOrder) (rs : List F) : Exact lookupIndices table order Z rs := by
  have height : 2 ^ (k + 3) = 8 * 2 ^ k := by rw [pow_add]; ring
  have hZ : Z.length = 8 * 2 ^ k := by
    have hmap := congrArg List.length (map_eq_of_mapM h)
    rw [List.length_map, List.length_map] at hmap
    omega
  have hexact := exact_of_entries (k := k) (by omega) order
    (fun i hi => entry_of_dense h (by omega)) rs
  rwa [← hZ, tableOf_getD] at hexact

end RaPolynomial

namespace SharedRaPolynomials

def bindAll (order : BindingOrder) (s : SharedRaPolynomials F) (rs : List F) :
    Option (SharedRaPolynomials F) := rs.foldlM (bind order) s

/-- What is read off the polynomials is what is read off dense coefficients. -/
structure Shows (s : SharedRaPolynomials F) (numPolys : Nat) (Z : Nat → List F) : Prop where
  coeff : ∀ polyIdx < numPolys, ∀ j < (Z polyIdx).length, s.getBoundCoeff polyIdx j = (Z polyIdx)[j]?
  claim : ∀ polyIdx < numPolys, (Z polyIdx).length = 1 →
    s.finalSumcheckClaim polyIdx = DensePolynomial.finalSumcheckClaim (Z polyIdx)

/-- After any number of the bindings the polynomials are the dense ones. -/
def Exact (tables : List (List F)) (indices : List RaIndices) (p : OneHotParams) (order : BindingOrder)
    (Z : Nat → List F) (rs : List F) : Prop :=
  ∀ rs', rs' <+: rs → ∃ s, (new tables indices p).bindAll order rs' = .some s ∧
    s.Shows p.numPolys fun polyIdx => DensePolynomial.bindAll order (Z polyIdx) rs'

/-- What the copies taken for each other add to the coefficients cancels out. -/
def SwapCancels (order : BindingOrder) (numPolys n : Nat) (v : Nat → Nat → F) : List F → Prop
  | r0 :: r1 :: r2 :: _ => order = .highToLow → ∀ polyIdx < numPolys, ∀ j < n,
    (r0 - r2) * ((1 - r1) * (v polyIdx (n + j) - v polyIdx (4 * n + j)) +
      r1 * (v polyIdx (3 * n + j) - v polyIdx (6 * n + j))) = 0
  | _ => True

variable {p : OneHotParams} {tables : List (List F)} {indices : List RaIndices} {v : Nat → Nat → F}
  {k : Nat}

theorem Shows.of_table {s : SharedRaPolynomials F} {numPolys len : Nat} {f : Nat → Nat → F}
    (h : ∀ polyIdx < numPolys, ∀ j < len, s.getBoundCoeff polyIdx j = .some (f polyIdx j)) (hone : len ≠ 1) :
    s.Shows numPolys fun polyIdx => tableOf len (f polyIdx) where
  coeff := by
    intro polyIdx hpoly j hj
    rw [length_tableOf] at hj
    rw [h polyIdx hpoly j hj, getElem?_tableOf hj]
  claim := by
    intro polyIdx hpoly h1
    rw [length_tableOf] at h1
    exact absurd h1 hone

theorem Shows.roundN (numPolys : Nat) (Z : Nat → List F) :
    (SharedRaPolynomials.roundN (tableOf numPolys Z)).Shows numPolys Z where
  coeff := by
    intro polyIdx hpoly j hj
    rw [getBoundCoeff, getElem?_tableOf hpoly, Option.bind_eq_bind, Option.bind_some]
  claim := by
    intro polyIdx hpoly h1
    rw [finalSumcheckClaim, getElem?_tableOf hpoly, Option.bind_eq_bind, Option.bind_some]

theorem bindAll_roundN (order : BindingOrder) (numPolys : Nat) (rs : List F) (Z : Nat → List F) :
    (SharedRaPolynomials.roundN (tableOf numPolys Z)).bindAll order rs =
      .some (.roundN (tableOf numPolys fun polyIdx => DensePolynomial.bindAll order (Z polyIdx) rs)) := by
  induction rs generalizing Z with
  | nil => rfl
  | cons r rs ih =>
    have hbind : (SharedRaPolynomials.roundN (tableOf numPolys Z)).bind order r =
        .some (.roundN (tableOf numPolys fun polyIdx => DensePolynomial.bind order (Z polyIdx) r)) := by
      rw [bind, map_tableOf]
    rw [bindAll, List.foldlM_cons, hbind]
    exact ih _

theorem bindAll_two (order : BindingOrder) (r0 r1 : F) :
    (new tables indices p).bindAll order [r0, r1] =
      .some (.round3 (sharedThirdRound p tables indices p.numPolys order r0 r1)) := by
  simp only [new, bindAll, List.foldlM_cons, List.foldlM_nil, bind, Option.bind_eq_bind,
    Option.bind_some, shared_bind_bind, Option.map_some, Option.pure_def]

theorem bindAll_three (hlen : indices.length = 8 * 2 ^ k) (order : BindingOrder)
    (hv : ∀ polyIdx < p.numPolys, ∀ i < 8 * 2 ^ k, sharedEntry p tables indices polyIdx i = .some (v polyIdx i))
    (r0 r1 r2 : F) :
    (new tables indices p).bindAll order [r0, r1, r2] = .some (.roundN (tableOf p.numPolys fun polyIdx =>
      tableOf (2 ^ k) (sharedCoeff order (2 ^ k) r0 r1 r2 (v polyIdx)))) := by
  have heighth : (sharedThirdRound p tables indices p.numPolys order r0 r1).indices.length / 8 = 2 ^ k := by
    simp only [sharedThirdRound]
    omega
  have hmaterialize : (sharedThirdRound p tables indices p.numPolys order r0 r1).bind r2 order =
      .some (tableOf p.numPolys fun polyIdx =>
        tableOf (2 ^ k) (sharedCoeff order (2 ^ k) r0 r1 r2 (v polyIdx))) := by
    rw [SharedRaRound3.bind, if_pos (by rfl), heighth]
    refine mapM_range fun polyIdx hpoly => ?_
    rw [mapM_range fun j hj => shared_materialize hlen (hv polyIdx hpoly) hj, Option.bind_eq_bind,
      Option.bind_some, DensePolynomial.new_tableOf]
  have happ : [r0, r1, r2] = [r0, r1] ++ [r2] := rfl
  rw [bindAll, happ, List.foldlM_append, ← bindAll, bindAll_two]
  simp only [Option.bind_eq_bind, Option.bind_some, List.foldlM_cons, List.foldlM_nil, bind,
    hmaterialize, Option.map_some, Option.pure_def]

/-- The coefficients of the third binding are the dense ones where the copies cancel out. -/
theorem sharedCoeff_eq_iff (order : BindingOrder) (n : Nat) (r0 r1 r2 : F) (v : Nat → F) (j : Nat) :
    sharedCoeff order n r0 r1 r2 v j =
        bindFn order n r2 (bindFn order (2 * n) r1 (bindFn order (4 * n) r0 v)) j ↔
      (order = .highToLow → (r0 - r2) * ((1 - r1) * (v (n + j) - v (4 * n + j)) +
        r1 * (v (3 * n + j) - v (6 * n + j))) = 0) := by
  cases order with
  | lowToHigh => simp [sharedCoeff_lowToHigh]
  | highToLow => simp only [sharedCoeff_highToLow, add_eq_left, true_implies]

theorem exact_of_entries_iff (hlen : indices.length = 8 * 2 ^ k) (order : BindingOrder)
    (hv : ∀ polyIdx < p.numPolys, ∀ i < 8 * 2 ^ k, sharedEntry p tables indices polyIdx i = .some (v polyIdx i))
    (rs : List F) :
    Exact tables indices p order (fun polyIdx => tableOf (8 * 2 ^ k) (v polyIdx)) rs ↔
      SwapCancels order p.numPolys (2 ^ k) v rs := by
  have hpos : 0 < 2 ^ k := Nat.two_pow_pos k
  constructor
  · intro h
    match rs with
    | [] | [_] | [_, _] => trivial
    | r0 :: r1 :: r2 :: rest =>
      obtain ⟨s, hs, hshows⟩ := h [r0, r1, r2] ⟨rest, rfl⟩
      rw [bindAll_three hlen order hv] at hs
      cases hs
      intro horder polyIdx hpoly j hj
      have hcoeff := hshows.coeff polyIdx hpoly j
        (by rw [DensePolynomial.bindAll_three, length_tableOf]; exact hj)
      rw [getBoundCoeff, getElem?_tableOf hpoly, Option.bind_eq_bind, Option.bind_some, getElem?_tableOf hj,
        DensePolynomial.bindAll_three, getElem?_tableOf hj] at hcoeff
      exact (sharedCoeff_eq_iff order _ r0 r1 r2 (v polyIdx) j).mp (Option.some.inj hcoeff) horder
  · rintro h rs' ⟨rest', rfl⟩
    match rs' with
    | [] => exact ⟨_, rfl, .of_table hv (by omega)⟩
    | [r0] =>
      simp only [DensePolynomial.bindAll_one]
      exact ⟨_, rfl, .of_table (fun polyIdx hpoly j hj =>
        getBoundCoeff_sharedRound2 (by omega) (fun i hi => hv polyIdx hpoly i (by omega)) hj) (by omega)⟩
    | [r0, r1] =>
      simp only [DensePolynomial.bindAll_two]
      refine ⟨_, bindAll_two order r0 r1, .of_table (fun polyIdx hpoly j hj => ?_) (by omega)⟩
      rw [getBoundCoeff, getBoundCoeff_sharedRound3 (n := 2 * 2 ^ k) (by omega)
        (fun i hi => hv polyIdx hpoly i (by omega)) hj]
      congr 3
      omega
    | r0 :: r1 :: r2 :: rest =>
      have happ : r0 :: r1 :: r2 :: rest = [r0, r1, r2] ++ rest := rfl
      have hthird : (tableOf p.numPolys fun polyIdx =>
          tableOf (2 ^ k) (sharedCoeff order (2 ^ k) r0 r1 r2 (v polyIdx))) =
          tableOf p.numPolys fun polyIdx =>
            DensePolynomial.bindAll order (tableOf (8 * 2 ^ k) (v polyIdx)) [r0, r1, r2] := by
        refine tableOf_congr fun polyIdx hpoly => ?_
        rw [DensePolynomial.bindAll_three]
        exact tableOf_congr fun j hj => (sharedCoeff_eq_iff order _ r0 r1 r2 (v polyIdx) j).mpr
          fun horder => h horder polyIdx hpoly j hj
      have hrun : (new tables indices p).bindAll order (r0 :: r1 :: r2 :: rest) =
          .some (.roundN (tableOf p.numPolys fun polyIdx =>
            DensePolynomial.bindAll order (tableOf (8 * 2 ^ k) (v polyIdx)) (r0 :: r1 :: r2 :: rest))) := by
        rw [happ, bindAll, List.foldlM_append, ← bindAll, bindAll_three hlen order hv, hthird]
        simp only [DensePolynomial.bindAll_append]
        exact bindAll_roundN order p.numPolys rest _
      exact ⟨_, hrun, .roundN _ _⟩

/-- The entries of a polynomial in every row, by the function that lists them. -/
theorem sharedEntry_of_dense {polyIdx : Nat} {Z : List F} (h : dense tables indices p polyIdx = .some Z)
    {i : Nat} (hi : i < indices.length) : sharedEntry p tables indices polyIdx i = .some (Z.getD i 0) := by
  obtain ⟨column, hcolumn, h⟩ := Option.bind_eq_some_iff.mp h
  obtain ⟨table, htable, h⟩ := Option.bind_eq_some_iff.mp h
  have hat := congrArg (·[i]?) (map_eq_of_mapM hcolumn)
  have hlen := congrArg List.length (map_eq_of_mapM hcolumn)
  rw [List.length_map, List.length_map] at hlen
  simp only [List.getElem?_map, List.getElem?_eq_getElem hi, List.getElem?_eq_getElem (hlen ▸ hi),
    Option.map_some, Option.some.injEq] at hat
  have hentry := RaPolynomial.entry_of_dense h (hlen ▸ hi)
  rw [entry, List.getElem?_eq_getElem (hlen ▸ hi), Option.bind_eq_bind, Option.bind_some] at hentry
  rw [← hentry, sharedEntry, List.getElem?_eq_getElem hi, Option.bind_eq_bind, Option.bind_some, hat,
    Option.bind_eq_bind, Option.bind_some, htable]
  cases column[i] <;> rfl

theorem Exact.congr {order : BindingOrder} {Z Z' : Nat → List F} {rs : List F}
    (hZ : ∀ polyIdx < p.numPolys, Z polyIdx = Z' polyIdx) (h : Exact tables indices p order Z rs) :
    Exact tables indices p order Z' rs := by
  intro rs' hprefix
  obtain ⟨s, hs, hshows⟩ := h rs' hprefix
  refine ⟨s, hs, fun polyIdx hpoly => ?_, fun polyIdx hpoly => ?_⟩
  · simpa only [hZ polyIdx hpoly] using hshows.coeff polyIdx hpoly
  · simpa only [hZ polyIdx hpoly] using hshows.claim polyIdx hpoly

theorem exact_iff {Z : Nat → List F} (h : ∀ polyIdx < p.numPolys, dense tables indices p polyIdx = .some (Z polyIdx))
    (hlen : indices.length = 2 ^ (k + 3)) (order : BindingOrder) (rs : List F) :
    Exact tables indices p order Z rs ↔
      SwapCancels order p.numPolys (indices.length / 8) (fun polyIdx i => (Z polyIdx).getD i 0) rs := by
  have height : 2 ^ (k + 3) = 8 * 2 ^ k := by rw [pow_add]; ring
  have hn : indices.length / 8 = 2 ^ k := by omega
  have hZ : ∀ polyIdx < p.numPolys, Z polyIdx = tableOf (8 * 2 ^ k) fun i => (Z polyIdx).getD i 0 := by
    intro polyIdx hpoly
    obtain ⟨column, hcolumn, hdense⟩ := Option.bind_eq_some_iff.mp (h polyIdx hpoly)
    obtain ⟨table, -, hdense⟩ := Option.bind_eq_some_iff.mp hdense
    have hrows := congrArg List.length (map_eq_of_mapM hcolumn)
    have hcoeffs := congrArg List.length (map_eq_of_mapM hdense)
    rw [List.length_map, List.length_map] at hrows hcoeffs
    rw [show 8 * 2 ^ k = (Z polyIdx).length by omega, tableOf_getD]
  have hiff := exact_of_entries_iff (k := k) (by omega) order
    (fun polyIdx hpoly i hi => sharedEntry_of_dense (h polyIdx hpoly) (by omega)) rs
  rw [hn, ← hiff]
  exact ⟨fun hexact => hexact.congr hZ, fun hexact => hexact.congr fun polyIdx hpoly => (hZ polyIdx hpoly).symm⟩

end SharedRaPolynomials

/-! ## Both representations -/

/-- **Delayed binding**: the rows of one family are their dense polynomial in every round;
so are the polynomials over shared rows in either order exactly where, for the highest
variable and from the third binding on, the entries of the copies that are taken for each
other cancel out. -/
theorem delayed_binding_exact_iff {lookupIndices : List (Option Nat)} {table Zra : List F} {k : Nat}
    (hra : RaPolynomial.dense lookupIndices table = .some Zra) (hlen : lookupIndices.length = 2 ^ (k + 3))
    {p : OneHotParams} {tables : List (List F)} {indices : List RaIndices} {Z : Nat → List F}
    (hshared : ∀ polyIdx < p.numPolys, SharedRaPolynomials.dense tables indices p polyIdx = .some (Z polyIdx))
    (hrows : indices.length = 2 ^ (k + 3)) (order : BindingOrder) (rs : List F) :
    (RaPolynomial.Exact lookupIndices table order Zra rs ∧
        SharedRaPolynomials.Exact tables indices p order Z rs) ↔
      SharedRaPolynomials.SwapCancels order p.numPolys (indices.length / 8)
        (fun polyIdx i => (Z polyIdx).getD i 0) rs := by
  rw [SharedRaPolynomials.exact_iff hshared hrows]
  exact and_iff_right (RaPolynomial.exact hra hlen order rs)

/-- Chunks of a byte, and one chunk of the bytecode's and of the memory's addresses. -/
def byteChunks : OneHotParams := ⟨8, 16, 8, 8⟩

/-- A table that is one at index one. -/
def oneAtOne : List (ZMod 7) := 0 :: 1 :: List.replicate 254 0

/-- Eight cycles, the second of which has another lookup index than the rest. -/
def secondCycle : List RaIndices :=
  (List.range 8).map fun cycle => ⟨fun _ => if cycle = 1 then 1 else 0, fun _ => 0, fun _ => .none⟩

/-- The dense polynomials of these rows. -/
def secondCycleDense (polyIdx : Nat) : List (ZMod 7) :=
  if polyIdx < 16 then [0, 1, 0, 0, 0, 0, 0, 0] else [0, 0, 0, 0, 0, 0, 0, 0]

theorem dense_secondCycle : ∀ polyIdx < byteChunks.numPolys,
    SharedRaPolynomials.dense (List.replicate 18 oneAtOne) secondCycle byteChunks polyIdx =
      .some (secondCycleDense polyIdx) := by decide

theorem delayed_binding_exact_lowToHigh :
    RaPolynomial.Exact [.some 1, .none, .some 0, .none, .none, .none, .none, .none] oneAtOne .lowToHigh
        [1, 0, 0, 0, 0, 0, 0, 0] [1, 0, 0] ∧
      SharedRaPolynomials.Exact (List.replicate 18 oneAtOne) secondCycle byteChunks .lowToHigh
        secondCycleDense [1, 0, 0] :=
  (delayed_binding_exact_iff (k := 0) (by decide) (by decide) dense_secondCycle (by decide)
    .lowToHigh [1, 0, 0]).mpr (by rintro ⟨⟩)

theorem shared_binding_diverges :
    ¬ SharedRaPolynomials.Exact (List.replicate 18 oneAtOne) secondCycle byteChunks .highToLow
      secondCycleDense [1, 0, 0] := by
  rw [SharedRaPolynomials.exact_iff (k := 0) dense_secondCycle (by decide)]
  intro h
  exact absurd (h rfl 0 (by decide) 0 (by decide)) (by decide)

end LightningJolt
