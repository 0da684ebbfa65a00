/-
Dense multilinear polynomials by their coefficients (`jolt-core/src/poly/dense_mlpoly.rs`):
the binding of the highest or of the lowest variable, the evaluations a round of
sumcheck asks for, and both in terms of the function that lists the coefficients.
-/
import LightningJolt.SplitEq

namespace LightningJolt

/-! ## Tables of a function -/

/-- The first values of a function. -/
def tableOf {α : Type} (n : Nat) (f : Nat → α) : List α := (List.range n).map f

section Table

variable {α β : Type} {n : Nat} {f g : Nat → α}

@[simp] theorem length_tableOf : (tableOf n f).length = n := by
  rw [tableOf, List.length_map, List.length_range]

theorem getElem?_tableOf {i : Nat} (h : i < n) : (tableOf n f)[i]? = .some (f i) := by
  rw [tableOf, List.getElem?_map, List.getElem?_range h, Option.map_some]

theorem getD_tableOf {i : Nat} {d : α} (h : i < n) : (tableOf n f).getD i d = f i := by
  rw [List.getD_eq_getElem?_getD, getElem?_tableOf h, Option.getD_some]

theorem tableOf_congr (h : ∀ i < n, f i = g i) : tableOf n f = tableOf n g :=
  List.map_congr_left fun i hi => h i (List.mem_range.mp hi)

theorem tableOf_inj : tableOf n f = tableOf n g ↔ ∀ i < n, f i = g i := by
  refine ⟨fun h i hi => ?_, tableOf_congr⟩
  have hf := getElem?_tableOf (f := f) hi
  rw [h, getElem?_tableOf hi] at hf
  exact (Option.some.inj hf).symm

/-- A list is the table of its entries. -/
theorem tableOf_getD (l : List α) (d : α) : tableOf l.length (fun i => l.getD i d) = l := by
  refine List.ext_getElem? fun i => ?_
  by_cases h : i < l.length
  · rw [getElem?_tableOf h, List.getD_eq_getElem?_getD, List.getElem?_eq_getElem h, Option.getD_some]
  · rw [List.getElem?_eq_none (by rw [length_tableOf]; omega), List.getElem?_eq_none (by omega)]

theorem map_tableOf (h : α → β) : (tableOf n f).map h = tableOf n fun i => h (f i) := by
  rw [tableOf, List.map_map]
  rfl

theorem tableOf_add (m n : Nat) (f : Nat → α) :
    tableOf (m + n) f = tableOf m f ++ tableOf n fun i => f (m + i) := by
  rw [tableOf, List.range_add, List.map_append, List.map_map]
  rfl

theorem zipWith_tableOf {γ : Type} {f : Nat → α} {g : Nat → β} (h : α → β → γ) :
    List.zipWith h (tableOf n f) (tableOf n g) = tableOf n fun i => h (f i) (g i) := by
  rw [tableOf, tableOf, List.zipWith_map, List.zipWith_self]
  rfl

theorem mapM_of_some {f : α → Option β} {g : α → β} {l : List α} (h : ∀ a ∈ l, f a = .some (g a)) :
    l.mapM f = .some (l.map g) := by
  induction l with
  | nil => rfl
  | cons a l ih =>
    rw [List.mapM_cons, h a (List.mem_cons_self ..), ih fun b hb => h b (List.mem_cons_of_mem _ hb)]
    rfl

theorem mapM_range {f : Nat → Option β} {g : Nat → β} (h : ∀ i < n, f i = .some (g i)) :
    (List.range n).mapM f = .some (tableOf n g) :=
  mapM_of_some fun i hi => h i (List.mem_range.mp hi)

theorem map_eq_of_mapM {f : α → Option β} {l : List α} {ys : List β} (h : l.mapM f = .some ys) :
    l.map f = ys.map .some := by
  induction l generalizing ys with
  | nil => cases h; rfl
  | cons a l ih =>
    rw [List.mapM_cons] at h
    obtain ⟨b, hb, h⟩ := Option.bind_eq_some_iff.mp h
    obtain ⟨bs, hbs, h⟩ := Option.bind_eq_some_iff.mp h
    cases h
    rw [List.map_cons, List.map_cons, hb, ih hbs]

end Table

/-! ## The variable bound -/

variable {F : Type} [JoltField F]

/-- The value at `r` of the line through two values. -/
def line (r a b : F) : F := a + r * (b - a)

/-- Of `2 * n` coefficients, the two that the `i`-th after the binding is made from. -/
def BindingOrder.pair : BindingOrder → Nat → Nat → Nat × Nat
  | .highToLow, n, i => (i, n + i)
  | .lowToHigh, _, i => (2 * i, 2 * i + 1)

theorem BindingOrder.pair_lt (order : BindingOrder) {n i : Nat} (h : i < n) :
    (order.pair n i).1 < 2 * n ∧ (order.pair n i).2 < 2 * n := by
  cases order with
  | highToLow => exact ⟨by simp only [pair]; omega, by simp only [pair]; omega⟩
  | lowToHigh => exact ⟨by simp only [pair]; omega, by simp only [pair]; omega⟩

/-- A function on `2 * n` points with a variable bound. -/
def bindFn (order : BindingOrder) (n : Nat) (r : F) (f : Nat → F) (i : Nat) : F :=
  line r (f (order.pair n i).1) (f (order.pair n i).2)

/-- A function on `len` points with a variable bound to each challenge. -/
def boundFn (order : BindingOrder) : Nat → List F → (Nat → F) → Nat → F
  | _, [], f => f
  | len, r :: rs, f => boundFn order (len / 2) rs (bindFn order (len / 2) r f)

/-! ## The polynomial -/

namespace DensePolynomial

/-- `bound_poly_var_top`, on the first `len` coefficients. -/
def boundPolyVarTop (Z : List F) (r : F) : List F :=
  List.zipWith (fun a b => a + r * (b - a)) (Z.take (Z.length / 2)) (Z.drop (Z.length / 2))

/-- `bound_poly_var_bot`, on the first `len` coefficients. -/
def boundPolyVarBot (Z : List F) (r : F) : List F :=
  (List.range (Z.length / 2)).map fun i =>
    Z.getD (2 * i) 0 + r * (Z.getD (2 * i + 1) 0 - Z.getD (2 * i) 0)

/-- `bind` and `bind_parallel`. -/
def bind (order : BindingOrder) (Z : List F) (r : F) : List F :=
  match order with
  | .lowToHigh => boundPolyVarBot Z r
  | .highToLow => boundPolyVarTop Z r

/-- `final_sumcheck_claim`. -/
def finalSumcheckClaim (Z : List F) : Option F := if Z.length = 1 then Z[0]? else .none

theorem bind_tableOf (order : BindingOrder) (n : Nat) (f : Nat → F) (r : F) :
    bind order (tableOf (2 * n) f) r = tableOf n (bindFn order n r f) := by
  have hhalf : 2 * n / 2 = n := by omega
  cases order with
  | lowToHigh =>
    simp only [bind, boundPolyVarBot, length_tableOf, hhalf]
    refine tableOf_congr fun i hi => ?_
    rw [getD_tableOf (by omega), getD_tableOf (by omega)]
    rfl
  | highToLow =>
    simp only [bind, boundPolyVarTop, length_tableOf, hhalf]
    rw [two_mul, tableOf_add, List.take_left' length_tableOf, List.drop_left' length_tableOf, zipWith_tableOf]
    rfl

omit [JoltField F] in
theorem new_tableOf (k : Nat) (f : Nat → F) : new (tableOf (2 ^ k) f) = .some (tableOf (2 ^ k) f) := by
  rw [new, length_tableOf, Nat.log2_two_pow, if_pos rfl]

/-- The coefficients after a run of bindings. -/
def bindAll (order : BindingOrder) (Z : List F) (rs : List F) : List F := rs.foldl (bind order) Z

theorem bindAll_append (order : BindingOrder) (Z rs rs' : List F) :
    bindAll order Z (rs ++ rs') = bindAll order (bindAll order Z rs) rs' := List.foldl_append

theorem bindAll_tableOf (order : BindingOrder) (f : Nat → F) (rs : List F) {len : Nat}
    (h : 2 ^ rs.length ∣ len) :
    bindAll order (tableOf len f) rs = tableOf (len / 2 ^ rs.length) (boundFn order len rs f) := by
  induction rs generalizing len f with
  | nil => rw [List.length_nil, pow_zero, Nat.div_one]; rfl
  | cons r rs ih =>
    obtain ⟨m, rfl⟩ := h
    have hlen : 2 ^ (r :: rs).length * m = 2 * (2 ^ rs.length * m) := by
      rw [List.length_cons, pow_succ]; ring
    have hhalf : 2 * (2 ^ rs.length * m) / 2 = 2 ^ rs.length * m := by omega
    rw [hlen, bindAll, List.foldl_cons, bind_tableOf, ← bindAll, ih _ (Dvd.intro _ rfl), boundFn, hhalf,
      List.length_cons, pow_succ, Nat.mul_comm _ 2, Nat.mul_div_mul_left _ _ (by omega)]

end DensePolynomial

/-! ## Evaluations of a round -/

/-- `sumcheck_evals`: the linear polynomial of the pair at `index`, at 0, 2, 3 and so on. -/
def sumcheckEvals (getBoundCoeff : Nat → Option F) (len index degree : Nat) (order : BindingOrder) :
    Option (List F) := do
  if degree = 0 then .none
  else
    let first ← getBoundCoeff (order.pair (len / 2) index).1
    if degree = 1 then .some [first]
    else
      let second ← getBoundCoeff (order.pair (len / 2) index).2
      let m := second - first
      .some (first :: List.iterate (· + m) (second + m) (degree - 1))

theorem sumcheckEvals_congr {c1 c2 : Nat → Option F} {len : Nat} (h : ∀ i < len, c1 i = c2 i)
    {index : Nat} (hi : index < len / 2) (degree : Nat) (order : BindingOrder) :
    sumcheckEvals c1 len index degree order = sumcheckEvals c2 len index degree order := by
  obtain ⟨h1, h2⟩ := order.pair_lt hi
  rw [sumcheckEvals, sumcheckEvals, h _ (by omega), h _ (by omega)]

end LightningJolt
