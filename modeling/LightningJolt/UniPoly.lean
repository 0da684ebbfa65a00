/-
Univariate polynomials by their coefficients, whole or compressed: without the
linear term, which the verifier recovers from the sum over zero and one.
-/
import LightningJolt.Transcript

namespace LightningJolt

/-- What a build checks at run time. -/
structure BuildProfile where
  overflowChecks : Bool
  debugAssertions : Bool
deriving DecidableEq

namespace BuildProfile

/-- `usize` subtraction. -/
def subUsize (π : BuildProfile) (a b : Nat) : Option Nat :=
  if b ≤ a then .some (a - b)
  else if π.overflowChecks then .none else .some (a + 2 ^ 64 - b)

/-- `usize` addition. -/
def addUsize (π : BuildProfile) (a b : Nat) : Option Nat :=
  if a + b < 2 ^ 64 then .some (a + b)
  else if π.overflowChecks then .none else .some ((a + b) % 2 ^ 64)

theorem addUsize_of_lt (π : BuildProfile) {a b : Nat} (h : a + b < 2 ^ 64) : π.addUsize a b = .some (a + b) := if_pos h

/-- `i128` addition. -/
def addI128 (π : BuildProfile) (a b : Int) : Option Int :=
  if -2 ^ 127 ≤ a + b ∧ a + b < 2 ^ 127 then .some (a + b)
  else if π.overflowChecks then .none else .some (Int.bmod (a + b) (2 ^ 128))

end BuildProfile

structure UniPoly (F : Type) where
  coeffs : List F
deriving DecidableEq

structure CompressedUniPoly (F : Type) where
  coeffsExceptLinearTerm : List F
deriving DecidableEq

/-! ## Evaluation

`none` is a panic: an index out of range. -/

namespace UniPoly

variable {F C : Type} [JoltField F] [Challenge C F]

/-- `degree`, one less than the number of coefficients. -/
def degree (π : BuildProfile) (p : UniPoly F) : Option Nat := π.subUsize p.coeffs.length 1

/-- The loop of `eval_with_coeffs`: the sum so far and the power of the point. -/
def evalLoop (r : F) : List F → F → F → F
  | [], eval, _ => eval
  | c :: coeffs, eval, power => evalLoop r coeffs (eval + power * c) (power * r)

/-- `evaluate`. -/
def evaluate (p : UniPoly F) (r : C) : Option F :=
  match p.coeffs with
  | [] => .none
  | c :: coeffs => .some (evalLoop (Challenge.into r) coeffs c (Challenge.into r))

/-- `compress`. -/
def compress (p : UniPoly F) : Option (CompressedUniPoly F) :=
  match p.coeffs with
  | c :: _ :: coeffs => .some ⟨c :: coeffs⟩
  | _ => .none

end UniPoly

namespace CompressedUniPoly

variable {F C : Type} [JoltField F] [Challenge C F]

def degree (p : CompressedUniPoly F) : Nat := p.coeffsExceptLinearTerm.length

/-- The linear term that makes the sum over zero and one the hint. -/
def linearTerm (hint : F) (constant : F) (rest : List F) : F :=
  rest.foldl (· - ·) (hint - constant - constant)

/-- The loop of `eval_from_hint`: the sum so far and the power of the point. -/
def evalLoop (x : F) : List F → F → F → F
  | [], runningSum, _ => runningSum
  | c :: coeffs, runningSum, runningPoint =>
    evalLoop x coeffs (runningSum + c * (runningPoint * x)) (runningPoint * x)

/-- `eval_from_hint`. -/
def evalFromHint (p : CompressedUniPoly F) (hint : F) (x : C) : Option F :=
  match p.coeffsExceptLinearTerm with
  | [] => .none
  | constant :: rest =>
    .some (evalLoop (Challenge.into x) rest
      (constant + Challenge.into x * linearTerm hint constant rest) (Challenge.into x))

end CompressedUniPoly

/-! ## The sum over a symmetric domain -/

/-- `i128::checked_mul`, whose overflow is a panic here. -/
def checkedMulI128 (a b : Int) : Option Int :=
  if -2 ^ 127 ≤ a * b ∧ a * b < 2 ^ 127 then .some (a * b) else .none

/-- The inner loop of `power_sums`: the powers of a node, from `pow` on. -/
def accumulatePowers (π : BuildProfile) (t : Int) : Int → List Int → Option (List Int)
  | _, [] => .some []
  | pow, s :: sums => do
    let s ← π.addI128 s pow
    let sums ← accumulatePowers π t (← checkedMulI128 pow t) sums
    .some (s :: sums)

/-- The outer loop of `power_sums`, over the nodes. -/
def accumulateNodes (π : BuildProfile) : List Int → List Int → Option (List Int)
  | _, [] => .some []
  | [], sums => .some sums
  | t :: nodes, s :: sums => do
    let s ← π.addI128 s 1
    let sums ← accumulatePowers π t t sums
    accumulateNodes π nodes (s :: sums)

/-- `LagrangeHelper::power_sums`: the sums of the powers of the nodes centred at
zero. -/
def powerSums (π : BuildProfile) (windowN outLen : Nat) : Option (List Int) :=
  if outLen = 0 then .some []
  else do
    let d ← π.subUsize windowN 1
    let start : Int := -(d / 2 : Nat)
    accumulateNodes π ((List.range windowN).map fun j => start + j) (List.replicate outLen 0)

/-- The loop of `check_sum_evals`, over the coefficients and the power sums. -/
def checkSumLoop {F : Type} [JoltField F] : List F → List Int → F → Option F
  | [], _, sum => .some sum
  | _ :: _, [], _ => .none
  | c :: coeffs, s :: sums, sum => checkSumLoop coeffs sums (sum + c * (s : F))

/-- `check_sum_evals`. -/
def UniPoly.checkSumEvals {F : Type} [JoltField F] [DecidableEq F] (π : BuildProfile)
    (windowN outLen : Nat) (p : UniPoly F) (claim : F) : Option Bool := do
  if π.debugAssertions then
    if (← π.addUsize (← p.degree π) 1) ≠ outLen then .none
  let sum ← checkSumLoop p.coeffs (← powerSums π windowN outLen) 0
  .some (sum = claim)

theorem length_accumulatePowers {π : BuildProfile} {t pow : Int} {sums sums' : List Int}
    (h : accumulatePowers π t pow sums = .some sums') : sums'.length = sums.length := by
  induction sums generalizing pow sums' with
  | nil =>
    cases h
    rfl
  | cons s sums ih =>
    simp only [accumulatePowers, Option.bind_eq_bind, Option.bind_eq_some_iff] at h
    obtain ⟨s1, -, next, -, rest, hrest, hsums⟩ := h
    cases hsums
    simp [ih hrest]

theorem length_accumulateNodes {π : BuildProfile} {nodes sums sums' : List Int}
    (h : accumulateNodes π nodes sums = .some sums') : sums'.length = sums.length := by
  induction nodes generalizing sums with
  | nil =>
    cases sums <;> cases h <;> rfl
  | cons t nodes ih =>
    cases sums with
    | nil =>
      cases h
      rfl
    | cons s sums =>
      simp only [accumulateNodes, Option.bind_eq_bind, Option.bind_eq_some_iff] at h
      obtain ⟨s1, -, rest, hrest, hnodes⟩ := h
      rw [ih hnodes, List.length_cons, List.length_cons, length_accumulatePowers hrest]

theorem length_powerSums {π : BuildProfile} {windowN outLen : Nat} {sums : List Int}
    (h : powerSums π windowN outLen = .some sums) : sums.length = outLen := by
  unfold powerSums at h
  split_ifs at h with hzero
  · cases h
    exact hzero.symm
  · simp only [Option.bind_eq_bind, Option.bind_eq_some_iff] at h
    obtain ⟨d, -, hnodes⟩ := h
    rw [length_accumulateNodes hnodes, List.length_replicate]

/-- The index into the power sums stays in range as long as there are enough of
them. -/
theorem isSome_checkSumLoop {F : Type} [JoltField F] {coeffs : List F} {sums : List Int} {sum : F} :
    (checkSumLoop coeffs sums sum).isSome ↔ coeffs.length ≤ sums.length := by
  induction coeffs generalizing sums sum with
  | nil => simp [checkSumLoop]
  | cons c coeffs ih =>
    cases sums with
    | nil => simp [checkSumLoop]
    | cons s sums => simp [checkSumLoop, ih]

/-! ## Compression -/

section Compression

variable {F C : Type} [JoltField F] [Challenge C F]

/-- The value of a polynomial, lowest coefficient first. -/
def horner (x : F) (coeffs : List F) : F := coeffs.foldr (fun c acc => c + x * acc) 0

theorem UniPoly.evalLoop_eq (r : F) (coeffs : List F) (eval power : F) :
    evalLoop r coeffs eval power = eval + power * horner r coeffs := by
  induction coeffs generalizing eval power with
  | nil => simp [evalLoop, horner]
  | cons c coeffs ih =>
    simp only [evalLoop, ih, horner, List.foldr_cons]
    ring

theorem UniPoly.evaluate_eq {p : UniPoly F} (h : p.coeffs ≠ []) (r : C) :
    p.evaluate r = .some (horner (Challenge.into r) p.coeffs) := by
  obtain ⟨coeffs⟩ := p
  cases coeffs with
  | nil => exact absurd rfl h
  | cons c coeffs => simp [evaluate, UniPoly.evalLoop_eq, horner]

theorem CompressedUniPoly.evalLoop_eq (x : F) (coeffs : List F) (sum point : F) :
    evalLoop x coeffs sum point = sum + point * x * horner x coeffs := by
  induction coeffs generalizing sum point with
  | nil => simp [evalLoop, horner]
  | cons c coeffs ih =>
    simp only [evalLoop, ih, horner, List.foldr_cons]
    ring

theorem CompressedUniPoly.linearTerm_eq (hint constant : F) (rest : List F) :
    linearTerm hint constant rest = hint - constant - constant - rest.sum := by
  unfold linearTerm
  generalize hint - constant - constant = start
  induction rest generalizing start with
  | nil => simp
  | cons c rest ih =>
    rw [List.foldl_cons, ih, List.sum_cons]
    ring

theorem horner_one (coeffs : List F) : horner 1 coeffs = coeffs.sum := by
  induction coeffs with
  | nil => rfl
  | cons c coeffs ih => simpa [horner] using ih

/-- The value at zero and the value at one. -/
def UniPoly.sumOverBit (p : UniPoly F) : F := horner 0 p.coeffs + horner 1 p.coeffs

/-- **Compression loses nothing**: from the sum over zero and one the compressed
polynomial evaluates as the whole one. -/
theorem CompressedUniPoly.evalFromHint_compress {p : UniPoly F} {q : CompressedUniPoly F}
    (h : p.compress = .some q) (x : C) : q.evalFromHint p.sumOverBit x = p.evaluate x := by
  obtain ⟨coeffs⟩ := p
  match coeffs, h with
  | c :: l :: rest, h =>
    cases h
    rw [UniPoly.evaluate_eq (by simp)]
    simp only [evalFromHint, CompressedUniPoly.evalLoop_eq, linearTerm_eq, UniPoly.sumOverBit,
      horner_one]
    simp only [horner, List.foldr_cons, List.sum_cons]
    congr 1
    ring

end Compression

end LightningJolt
