/-
The Dory commitment scheme's setup: the groups and their pairing, the
generators a prover holds and the pairing products a verifier derives from them.
-/
import LightningJolt.InnerProduct
import LightningJolt.SparseEval

namespace LightningJolt.Dory

/-! ## Outcomes -/

/-- `DoryError`, of the kinds a proof or its check can return. -/
inductive DoryError
  | invalidPointDimension (expected actual : Nat)
  | invalidSize (expected actual : Nat)
  | invalidProof
deriving DecidableEq, Repr

/-- What a call does: it returns, it returns an error, or it panics. -/
inductive Outcome (α : Type)
  | ok (a : α)
  | error (e : DoryError)
  | panic
deriving DecidableEq, Repr

namespace Outcome

protected def bind {α β : Type} : Outcome α → (α → Outcome β) → Outcome β
  | ok a, f => f a
  | error e, _ => error e
  | panic, _ => panic

instance : Monad Outcome where
  pure := ok
  bind := Outcome.bind

variable {α β : Type}

@[simp] theorem pure_eq (a : α) : (pure a : Outcome α) = ok a := rfl
@[simp] theorem ok_bind (a : α) (f : α → Outcome β) : (ok a >>= f) = f a := rfl
@[simp] theorem error_bind (e : DoryError) (f : α → Outcome β) : (error e >>= f) = error e := rfl
@[simp] theorem panic_bind (f : α → Outcome β) : ((panic : Outcome α) >>= f) = panic := rfl

instance : LawfulMonad Outcome := LawfulMonad.mk' Outcome (fun x => by cases x <;> rfl) (fun _ _ => rfl)
  (fun x _ _ => by cases x <;> rfl)

theorem bind_eq_ok {x : Outcome α} {f : α → Outcome β} {b : β} :
    (x >>= f) = ok b ↔ ∃ a, x = ok a ∧ f a = ok b := by
  cases x <;> simp

theorem mapM_ok {f : α → Outcome β} {g : α → β} {l : List α} (h : ∀ a ∈ l, f a = ok (g a)) :
    l.mapM f = ok (l.map g) := by
  induction l with
  | nil => rfl
  | cons a l ih =>
    rw [List.mapM_cons, h a (List.mem_cons_self ..), ok_bind, ih fun b hb => h b (List.mem_cons_of_mem _ hb)]
    rfl

/-- `expect`, or an index that must be in bounds. -/
def ofOption : Option α → Outcome α
  | .some a => ok a
  | .none => panic

@[simp] theorem ofOption_some (a : α) : ofOption (.some a) = ok a := rfl
@[simp] theorem ofOption_none : ofOption (.none : Option α) = panic := rfl

/-- `ok_or`. -/
def okOr (e : DoryError) : Option α → Outcome α
  | .some a => ok a
  | .none => error e

@[simp] theorem okOr_some (e : DoryError) (a : α) : okOr e (.some a) = ok a := rfl
@[simp] theorem okOr_none (e : DoryError) : okOr e (.none : Option α) = error e := rfl

/-- `assert!`. -/
def assert (p : Prop) [Decidable p] : Outcome Unit := if p then ok () else panic

@[simp] theorem assert_true {p : Prop} [Decidable p] (h : p) : assert p = ok () := if_pos h

/-- A condition without which the call returns an error. -/
def check (p : Prop) [Decidable p] (e : DoryError) : Outcome Unit := if p then ok () else error e

@[simp] theorem check_true {p : Prop} [Decidable p] (h : p) (e : DoryError) : check p e = ok () := if_pos h

theorem check_bind {p : Prop} [Decidable p] {e : DoryError} {f : Unit → Outcome α} {x : Outcome α} (h : p)
    (hf : f () = x) : (check p e >>= f) = x := by
  rw [check_true h, ok_bind, hf]

theorem check_eq_ok {p : Prop} [Decidable p] {e : DoryError} : check p e = ok () ↔ p := by
  by_cases h : p <;> simp [check, h]

theorem check_false {p : Prop} [Decidable p] (h : ¬ p) (e : DoryError) : check p e = error e := if_neg h

end Outcome

/-- `&xs[..n]`. -/
def sliceTo {α : Type} (xs : List α) (n : Nat) : Outcome (List α) :=
  if n ≤ xs.length then .ok (xs.take n) else .panic

theorem sliceTo_ok {α : Type} {xs : List α} {n : Nat} (h : n ≤ xs.length) : sliceTo xs n = .ok (xs.take n) :=
  if_pos h

/-- `&xs[from..to]`. -/
def slice {α : Type} (xs : List α) (start stop : Nat) : Outcome (List α) :=
  if start ≤ stop ∧ stop ≤ xs.length then .ok ((xs.take stop).drop start) else .panic

theorem slice_ok {α : Type} {xs : List α} {start stop : Nat} (h : start ≤ stop) (h' : stop ≤ xs.length) :
    slice xs start stop = .ok ((xs.take stop).drop start) := if_pos ⟨h, h'⟩

/-- `split_at`. -/
def splitAt {α : Type} (xs : List α) (n : Nat) : Outcome (List α × List α) :=
  if n ≤ xs.length then .ok (xs.take n, xs.drop n) else .panic

theorem splitAt_ok {α : Type} {xs : List α} {n : Nat} (h : n ≤ xs.length) :
    splitAt xs n = .ok (xs.take n, xs.drop n) := if_pos h

/-! ## Groups -/

variable {F G1 G2 GT : Type} [Field F] [AddCommGroup G1] [Module F G1] [AddCommGroup G2] [Module F G2]
  [AddCommGroup GT] [Module F GT]

/-- The scalars commute, which the linear maps into linear maps rest on. -/
scoped instance smulCommClass_scalars : SMulCommClass F F GT := smulCommClass_self F GT

/-- `Field::inv`. -/
def inv [DecidableEq F] (a : F) : Option F := if a = 0 then .none else .some a⁻¹

@[simp] theorem inv_zero [DecidableEq F] : inv (0 : F) = .none := if_pos rfl

theorem inv_of_ne [DecidableEq F] {a : F} (h : a ≠ 0) : inv a = .some a⁻¹ := if_neg h

namespace DoryRoutines

variable {G : Type} [AddCommGroup G] [Module F G]

/-- `msm`. -/
def msm (bases : List G) (scalars : List F) : Outcome G :=
  if bases.length = scalars.length then .ok (LightningJolt.msm bases scalars) else .panic

theorem msm_ok {bases : List G} {scalars : List F} (h : bases.length = scalars.length) :
    msm bases scalars = .ok (LightningJolt.msm bases scalars) := if_pos h

/-- `fixed_base_vector_scalar_mul`. -/
def fixedBaseVectorScalarMul (base : G) (scalars : List F) : List G := scalars.map (· • base)

/-- `fixed_scalar_mul_bases_then_add`. -/
def fixedScalarMulBasesThenAdd (bases vs : List G) (scalar : F) : Outcome (List G) :=
  if bases.length = vs.length then .ok (axpy scalar bases vs) else .panic

/-- `fixed_scalar_mul_vs_then_add`. -/
def fixedScalarMulVsThenAdd (vs addends : List G) (scalar : F) : Outcome (List G) :=
  if vs.length = addends.length then .ok (axpy scalar vs addends) else .panic

/-- `fold_field_vectors`. -/
def foldFieldVectors (left right : List F) (scalar : F) : Outcome (List F) :=
  if left.length = right.length then .ok (axpy scalar left right) else .panic

theorem fixedScalarMulBasesThenAdd_ok {bases vs : List G} (h : bases.length = vs.length) (scalar : F) :
    fixedScalarMulBasesThenAdd bases vs scalar = .ok (axpy scalar bases vs) := if_pos h

theorem fixedScalarMulVsThenAdd_ok {vs addends : List G} (h : vs.length = addends.length) (scalar : F) :
    fixedScalarMulVsThenAdd vs addends scalar = .ok (axpy scalar vs addends) := if_pos h

theorem foldFieldVectors_ok {left right : List F} (h : left.length = right.length) (scalar : F) :
    foldFieldVectors left right scalar = .ok (axpy scalar left right) := if_pos h

end DoryRoutines

/-- `multi_pair`, which the variants for points of the setup and for two products agree with. -/
def multiPair (pair : G1 →ₗ[F] G2 →ₗ[F] GT) (ps : List G1) (qs : List G2) : Outcome GT :=
  if ps.length = qs.length then .ok (dot pair ps qs) else .panic

theorem multiPair_ok {pair : G1 →ₗ[F] G2 →ₗ[F] GT} {ps : List G1} {qs : List G2} (h : ps.length = qs.length) :
    multiPair pair ps qs = .ok (dot pair ps qs) := if_pos h

/-! ## Setups -/

/-- `ProverSetup`. -/
structure ProverSetup (G1 G2 GT : Type) where
  g1Vec : List G1
  g2Vec : List G2
  h1 : G1
  h2 : G2
  ht : GT
deriving DecidableEq

/-- `VerifierSetup`. -/
structure VerifierSetup (G1 G2 GT : Type) where
  delta1l : List GT
  delta1r : List GT
  delta2l : List GT
  delta2r : List GT
  chi : List GT
  g1First : G1
  g2First : G2
  h1 : G1
  h2 : G2
  ht : GT
  maxLogN : Nat
deriving DecidableEq

namespace ProverSetup

variable (pair : G1 →ₗ[F] G2 →ₗ[F] GT)

/-- `ProverSetup::new`, with the points it samples. -/
def new (maxLogN : Nat) (g1 : Nat → G1) (g2 : Nat → G2) (h1 : G1) (h2 : G2) : ProverSetup G1 G2 GT :=
  let n := 1 <<< ((maxLogN + 1) / 2)
  { g1Vec := (List.range n).map g1, g2Vec := (List.range n).map g2, h1, h2, ht := pair h1 h2 }

/-- The products of a level: the second half with the first, the first with the second, the second halves. -/
def levelResults (s : ProverSetup G1 G2 GT) (k : Nat) : Outcome (GT × GT × GT) := do
  let halfLen := 1 <<< (k - 1)
  let fullLen := 1 <<< k
  let g1First ← sliceTo s.g1Vec halfLen
  let g1Second ← slice s.g1Vec halfLen fullLen
  let g2First ← sliceTo s.g2Vec halfLen
  let g2Second ← slice s.g2Vec halfLen fullLen
  let d1r ← multiPair pair g1Second g2First
  let d2r ← multiPair pair g1First g2Second
  let chiInc ← multiPair pair g1Second g2Second
  return (d1r, d2r, chiInc)

/-- The products `chi` of all levels. -/
def chiFrom (start : GT) : List (GT × GT × GT) → List GT
  | [] => [start]
  | level :: levels => start :: chiFrom (start + level.2.2) levels

/-- `to_verifier_setup`. -/
def toVerifierSetup (s : ProverSetup G1 G2 GT) : Outcome (VerifierSetup G1 G2 GT) := do
  let maxNumRounds := EqPolynomial.trailingZeros 64 s.g1Vec.length
  let levels ← (List.range' 1 maxNumRounds).mapM (s.levelResults pair)
  let g1First ← .ofOption s.g1Vec[0]?
  let g2First ← .ofOption s.g2Vec[0]?
  let chi := chiFrom (pair g1First g2First) levels
  return {
    delta1l := 0 :: chi.dropLast
    delta1r := 0 :: levels.map (·.1)
    delta2l := 0 :: chi.dropLast
    delta2r := 0 :: levels.map (·.2.1)
    chi, g1First, g2First
    h1 := s.h1
    h2 := s.h2
    ht := s.ht
    maxLogN := maxNumRounds * 2 }

/-- As many generators in each group as a power of two, and the pairing of the blinding generators. -/
structure Valid (s : ProverSetup G1 G2 GT) (m : Nat) : Prop where
  lt_width : m < 64
  length_g1 : s.g1Vec.length = 2 ^ m
  length_g2 : s.g2Vec.length = 2 ^ m
  ht_eq : s.ht = pair s.h1 s.h2

theorem valid_new {maxLogN : Nat} (h : (maxLogN + 1) / 2 < 64) (g1 : Nat → G1) (g2 : Nat → G2) (h1 : G1) (h2 : G2) :
    (new pair maxLogN g1 g2 h1 h2).Valid pair ((maxLogN + 1) / 2) where
  lt_width := h
  length_g1 := by simp [new, Nat.one_shiftLeft]
  length_g2 := by simp [new, Nat.one_shiftLeft]
  ht_eq := rfl

variable {pair}

/-- The product of the generators of a level. -/
def product (pair : G1 →ₗ[F] G2 →ₗ[F] GT) (s : ProverSetup G1 G2 GT) (k : Nat) : GT :=
  dot pair (s.g1Vec.take (2 ^ k)) (s.g2Vec.take (2 ^ k))

/-- The generators of the upper half of a level. -/
def upper {G : Type} (gens : List G) (k : Nat) : List G := (gens.take (2 ^ (k + 1))).drop (2 ^ k)

theorem length_upper {G : Type} {gens : List G} {k : Nat} (h : 2 ^ (k + 1) ≤ gens.length) :
    (upper gens k).length = 2 ^ k := by
  rw [upper, List.length_drop, List.length_take, pow_succ] at *
  omega

theorem take_append_upper {G : Type} (gens : List G) (k : Nat) :
    gens.take (2 ^ k) ++ upper gens k = gens.take (2 ^ (k + 1)) := by
  have hle : 2 ^ k ≤ 2 ^ (k + 1) := Nat.pow_le_pow_right (by omega) (by omega)
  have hsplit := List.take_append_drop (2 ^ k) (gens.take (2 ^ (k + 1)))
  rwa [List.take_take, Nat.min_eq_left hle] at hsplit

theorem Valid.pow_le {s : ProverSetup G1 G2 GT} {m k : Nat} (hv : s.Valid pair m) (h : k ≤ m) :
    2 ^ k ≤ s.g1Vec.length ∧ 2 ^ k ≤ s.g2Vec.length := by
  rw [hv.length_g1, hv.length_g2]
  exact ⟨Nat.pow_le_pow_right (by omega) h, Nat.pow_le_pow_right (by omega) h⟩

theorem Valid.product_succ {s : ProverSetup G1 G2 GT} {m k : Nat} (hv : s.Valid pair m) (h : k < m) :
    s.product pair (k + 1) = s.product pair k + dot pair (upper s.g1Vec k) (upper s.g2Vec k) := by
  obtain ⟨h1, h2⟩ := hv.pow_le (k := k) (by omega)
  rw [product, ← take_append_upper, ← take_append_upper, dot_append]
  · rfl
  · simp [h1, h2]

theorem Valid.levelResults_eq {s : ProverSetup G1 G2 GT} {m k : Nat} (hv : s.Valid pair m) (h : k < m) :
    s.levelResults pair (k + 1) = .ok (dot pair (upper s.g1Vec k) (s.g2Vec.take (2 ^ k)),
      dot pair (s.g1Vec.take (2 ^ k)) (upper s.g2Vec k), dot pair (upper s.g1Vec k) (upper s.g2Vec k)) := by
  obtain ⟨h1, h2⟩ := hv.pow_le (k := k) (by omega)
  obtain ⟨h1', h2'⟩ := hv.pow_le (k := k + 1) (by omega)
  have hle : 2 ^ k ≤ 2 ^ (k + 1) := Nat.pow_le_pow_right (by omega) (by omega)
  have l1 := length_upper h1'
  have l2 := length_upper h2'
  rw [upper] at l1 l2
  simp only [levelResults, Nat.one_shiftLeft, Nat.add_sub_cancel, sliceTo_ok h1, sliceTo_ok h2, slice_ok hle h1',
    slice_ok hle h2', Outcome.ok_bind]
  rw [multiPair_ok (by simp [l1, h2]), multiPair_ok (by simp [l2, h1]), multiPair_ok (by simp [l1, l2])]
  rfl

theorem chiFrom_eq {P : Nat → GT} {f : Nat → GT × GT × GT} (start n : Nat)
    (h : ∀ k, start ≤ k → k < start + n → P (k + 1) = P k + (f (k + 1)).2.2) :
    chiFrom (P start) ((List.range' (start + 1) n).map f) = (List.range' start (n + 1)).map P := by
  induction n generalizing start with
  | zero => rfl
  | succ n ih =>
    have hrest := ih (start + 1) fun k hk hk' => h k (by omega) (by omega)
    rw [List.range'_succ (s := start + 1), List.map_cons, chiFrom, ← h start le_rfl (by omega), hrest,
      List.range'_succ (s := start)]
    rfl

/-- What the verifier's setup holds. -/
def derived (pair : G1 →ₗ[F] G2 →ₗ[F] GT) (s : ProverSetup G1 G2 GT) (m : Nat) (g1First : G1) (g2First : G2) :
    VerifierSetup G1 G2 GT where
  delta1l := 0 :: (List.range m).map (s.product pair)
  delta1r := 0 :: (List.range m).map fun k => dot pair (upper s.g1Vec k) (s.g2Vec.take (2 ^ k))
  delta2l := 0 :: (List.range m).map (s.product pair)
  delta2r := 0 :: (List.range m).map fun k => dot pair (s.g1Vec.take (2 ^ k)) (upper s.g2Vec k)
  chi := (List.range (m + 1)).map (s.product pair)
  g1First := g1First
  g2First := g2First
  h1 := s.h1
  h2 := s.h2
  ht := s.ht
  maxLogN := m * 2

theorem trailingZeros_two_pow {bits m : Nat} (h : m < bits) : EqPolynomial.trailingZeros bits (2 ^ m) = m := by
  induction bits generalizing m with
  | zero => omega
  | succ bits ih =>
    cases m with
    | zero => rfl
    | succ m =>
      rw [EqPolynomial.trailingZeros, if_neg (by rw [pow_succ]; omega), pow_succ,
        Nat.mul_div_cancel _ (by omega), ih (by omega)]

theorem Valid.exists_first {s : ProverSetup G1 G2 GT} {m : Nat} (hv : s.Valid pair m) :
    ∃ g1 g2, s.g1Vec[0]? = .some g1 ∧ s.g2Vec[0]? = .some g2 := by
  have hpos := Nat.two_pow_pos m
  have h1 : 0 < s.g1Vec.length := by rw [hv.length_g1]; exact hpos
  have h2 : 0 < s.g2Vec.length := by rw [hv.length_g2]; exact hpos
  exact ⟨_, _, List.getElem?_eq_getElem h1, List.getElem?_eq_getElem h2⟩

theorem take_one {G : Type} {gens : List G} {g : G} (h : gens[0]? = .some g) : gens.take 1 = [g] := by
  cases gens with
  | nil => simp at h
  | cons a gens => simpa using h

/-- **The verifier's setup**: the products of the prover's generators at each level. -/
theorem Valid.toVerifierSetup_eq {s : ProverSetup G1 G2 GT} {m : Nat} (hv : s.Valid pair m) {g1 : G1} {g2 : G2}
    (h1 : s.g1Vec[0]? = .some g1) (h2 : s.g2Vec[0]? = .some g2) :
    s.toVerifierSetup pair = .ok (s.derived pair m g1 g2) := by
  have hlevels := Outcome.mapM_ok (l := List.range' 1 m) (f := s.levelResults pair)
    (g := fun k => (dot pair (upper s.g1Vec (k - 1)) (s.g2Vec.take (2 ^ (k - 1))),
      dot pair (s.g1Vec.take (2 ^ (k - 1))) (upper s.g2Vec (k - 1)),
      dot pair (upper s.g1Vec (k - 1)) (upper s.g2Vec (k - 1)))) fun k hk => by
    obtain ⟨hk1, hk2⟩ := List.mem_range'_1.mp hk
    obtain ⟨k, rfl⟩ : ∃ j, k = j + 1 := ⟨k - 1, by omega⟩
    exact hv.levelResults_eq (by omega)
  have hstart : pair g1 g2 = s.product pair 0 := by
    rw [product, pow_zero, take_one h1, take_one h2]
    simp
  have hchi := chiFrom_eq (P := s.product pair)
    (f := fun k => (dot pair (upper s.g1Vec (k - 1)) (s.g2Vec.take (2 ^ (k - 1))),
      dot pair (s.g1Vec.take (2 ^ (k - 1))) (upper s.g2Vec (k - 1)),
      dot pair (upper s.g1Vec (k - 1)) (upper s.g2Vec (k - 1)))) 0 m fun k _ hk => hv.product_succ (by omega)
  rw [Nat.zero_add] at hchi
  rw [toVerifierSetup, hv.length_g1, trailingZeros_two_pow hv.lt_width]
  simp only [hlevels, h1, h2, Outcome.ofOption_some, Outcome.ok_bind, hstart, hchi, Outcome.pure_eq]
  have hdrop : ((List.range (m + 1)).map (s.product pair)).dropLast = (List.range m).map (s.product pair) := by
    rw [List.range_succ, List.map_append, List.map_singleton, List.dropLast_concat]
  have hone : List.range' 1 m = (List.range m).map (1 + ·) := List.range'_eq_map_range
  rw [derived, ← List.range_eq_range', hdrop, hone]
  simp only [List.map_map, Function.comp_def, Nat.add_sub_cancel_left]

end ProverSetup

end LightningJolt.Dory
