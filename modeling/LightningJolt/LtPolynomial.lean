/-
The less-than polynomial and the mask of a range (`jolt-core/src/poly/lt_poly.rs`,
`jolt-core/src/poly/range_mask_polynomial.rs`): the table of comparisons with a point,
kept in two halves that are bound in turn, and a range as a difference of comparisons.
-/
import LightningJolt.DenseBinding
import LightningJolt.EqIndex
import LightningJolt.LookupTable

namespace LightningJolt

open Finset

variable {F C : Type} [JoltField F] [Challenge C F]

/-! ## The source -/

/-- An iteration of `lt_evals`, with the coordinate of bit `i`. -/
def ltRound (evals : List F) (i : Nat) (r : F) : List F :=
  let left := evals.take (2 ^ i)
  let right := evals.drop (2 ^ i)
  List.zipWith (fun x _ => x + (r - x * r)) left right ++ List.zipWith (fun x _ => x * r) left right ++
    right.drop (2 ^ i)

/-- `lt_evals`, from the last coordinate to the first. -/
def ltEvals (r : List C) : List F :=
  (r.map Challenge.into).reverse.zipIdx.foldl (fun evals p => ltRound evals p.2 p.1)
    (List.replicate (2 ^ r.length) 0)

/-- `LtPolynomial`. -/
structure LtPolynomial (F : Type) where
  ltLo : List F
  ltHi : List F
  eqHi : List F
  nLoVars : Nat

namespace LtPolynomial

def new (rCycle : List C) : Option (LtPolynomial F) := do
  let rHi := rCycle.take (rCycle.length / 2)
  let rLo := rCycle.drop (rCycle.length / 2)
  .some
    { ltLo := ← DensePolynomial.new (ltEvals rLo)
      ltHi := ← DensePolynomial.new (ltEvals rHi)
      eqHi := ← DensePolynomial.new (EqPolynomial.evals rHi)
      nLoVars := rLo.length }

variable (s : LtPolynomial F)

def bindHighToLow (r : F) : LtPolynomial F :=
  if s.ltHi.length.log2 ≠ 0 then
    { s with
      ltHi := DensePolynomial.bind .highToLow s.ltHi r
      eqHi := DensePolynomial.bind .highToLow s.eqHi r }
  else
    { s with
      ltLo := DensePolynomial.bind .highToLow s.ltLo r
      nLoVars := s.nLoVars - 1 }

def bindLowToHigh (r : F) : LtPolynomial F :=
  if s.nLoVars ≠ 0 then
    { s with
      ltLo := DensePolynomial.bind .lowToHigh s.ltLo r
      nLoVars := s.nLoVars - 1 }
  else
    { s with
      ltHi := DensePolynomial.bind .lowToHigh s.ltHi r
      eqHi := DensePolynomial.bind .lowToHigh s.eqHi r }

def bind (order : BindingOrder) (s : LtPolynomial F) (r : F) : LtPolynomial F :=
  match order with
  | .highToLow => s.bindHighToLow r
  | .lowToHigh => s.bindLowToHigh r

def getBoundCoeff (i : Nat) : Option F := do
  let iHi := i >>> s.nLoVars
  let iLo := i &&& (1 <<< s.nLoVars - 1)
  .some ((← s.ltHi[iHi]?) + (← s.eqHi[iHi]?) * (← s.ltLo[iLo]?))

end LtPolynomial

/-- `RangeMaskPolynomial`, whose bounds are words of 128 bits. -/
structure RangeMaskPolynomial where
  rangeStart : Nat
  rangeEnd : Nat

namespace RangeMaskPolynomial

def new (rangeStart rangeEnd : Nat) : Option RangeMaskPolynomial :=
  if rangeStart < rangeEnd then .some ⟨rangeStart, rangeEnd⟩ else .none

/-- An iteration of the comparison: the bits left, `lt` and `eq`. -/
def ltStep (state : LookupBits × F × F) (r : F) : LookupBits × F × F :=
  let (bits, lt, eq) := state
  let (bit, bits) := bits.popMsb
  if bit = 1 then (bits, lt + eq * (1 - r), eq * r) else (bits, lt, eq * (1 - r))

/-- `LT(r, bound)`. -/
def ltBound (bound : Nat) (r : List F) : F :=
  (r.foldl ltStep (⟨bound % 2 ^ r.length, r.length⟩, 0, 1)).2.1

/-- `evaluate_mle`, at points of fewer than 128 coordinates. -/
def evaluateMle (s : RangeMaskPolynomial) (r : List C) : Option F :=
  if s.rangeEnd < 2 ^ r.length then
    .some (ltBound s.rangeEnd (r.map Challenge.into) - ltBound s.rangeStart (r.map Challenge.into))
  else .none

end RangeMaskPolynomial

/-! ## Comparisons with a point -/

/-- The multilinear extension, at a point, of being more than `j`. -/
def ltAt (w : List F) (j : Nat) : F := ∑ i ∈ range (2 ^ w.length), if j < i then eqAt w i else 0

/-- A comparison goes by the high bits, and by the low ones where these agree. -/
theorem ltAt_append (u v : List F) {i j : Nat} (hi : i < 2 ^ u.length) (hj : j < 2 ^ v.length) :
    ltAt (u ++ v) (i * 2 ^ v.length + j) = ltAt u i + eqAt u i * ltAt v j := by
  have hinner : ∀ a ∈ range (2 ^ u.length), (∑ b ∈ range (2 ^ v.length),
      if i * 2 ^ v.length + j < a * 2 ^ v.length + b then eqAt (u ++ v) (a * 2 ^ v.length + b) else 0) =
      (if i < a then eqAt u a else 0) + if a = i then eqAt u a * ltAt v j else 0 := by
    intro a _
    rcases lt_trichotomy a i with hlt | rfl | hlt
    · rw [if_neg (by omega), if_neg (by omega), add_zero]
      refine sum_eq_zero fun b hb => if_neg ?_
      have hblock := Nat.mul_le_mul_right (2 ^ v.length) hlt
      rw [Nat.succ_mul] at hblock
      have := mem_range.mp hb
      omega
    · rw [if_neg (by omega), if_pos rfl, zero_add, ltAt, mul_sum]
      refine sum_congr rfl fun b hb => ?_
      rw [eqAt_append u v a (mem_range.mp hb), mul_ite, mul_zero]
      exact if_congr (by omega) rfl rfl
    · rw [if_pos hlt, if_neg (by omega), add_zero]
      have hblock := Nat.mul_le_mul_right (2 ^ v.length) hlt
      rw [Nat.succ_mul] at hblock
      calc _ = ∑ b ∈ range (2 ^ v.length), eqAt u a * eqAt v b := by
            refine sum_congr rfl fun b hb => ?_
            rw [if_pos (by omega), eqAt_append u v a (mem_range.mp hb)]
        _ = eqAt u a := by rw [← mul_sum, sum_eqAt, mul_one]
  rw [ltAt, List.length_append, pow_add, sum_range_mul, sum_congr rfl hinner, sum_add_distrib,
    sum_ite_eq', if_pos (mem_range.mpr hi), ← ltAt]

theorem eqAt_singleton (x : F) : eqAt [x] 0 = 1 - x ∧ eqAt [x] 1 = x := by
  rw [eqAt, eqAt, eqTable_singleton]
  exact ⟨rfl, rfl⟩

theorem ltAt_singleton (x : F) : ltAt [x] 0 = x ∧ ltAt [x] 1 = 0 := by
  have hrange : range (2 ^ [x].length) = {0, 1} := rfl
  constructor
  · rw [ltAt, hrange, sum_pair (by omega), if_neg (by omega), if_pos (by omega), zero_add]
    exact (eqAt_singleton x).2
  · rw [ltAt, hrange, sum_pair (by omega), if_neg (by omega), if_neg (by omega), add_zero]

/-- A further coordinate, of the highest bit, clear or set. -/
theorem ltAt_cons (x : F) (w : List F) {j : Nat} (hj : j < 2 ^ w.length) :
    ltAt (x :: w) j = ltAt w j + (x - ltAt w j * x) ∧
      ltAt (x :: w) (2 ^ w.length + j) = ltAt w j * x := by
  have hclear := ltAt_append [x] w (i := 0) (by simp) hj
  have hset := ltAt_append [x] w (i := 1) (by simp) hj
  rw [(ltAt_singleton x).1, (eqAt_singleton x).1, Nat.zero_mul, Nat.zero_add] at hclear
  rw [(ltAt_singleton x).2, (eqAt_singleton x).2, Nat.one_mul] at hset
  exact ⟨hclear.trans (by ring), hset.trans (by ring)⟩

theorem ltRound_table (x : F) (w : List F) {rest : Nat} (h : 2 ^ w.length ≤ rest) :
    ltRound (tableOf (2 ^ w.length) (ltAt w) ++ List.replicate rest 0) w.length x =
      tableOf (2 ^ (x :: w).length) (ltAt (x :: w)) ++ List.replicate (rest - 2 ^ w.length) 0 := by
  have hrest : List.replicate rest (0 : F) =
      tableOf (2 ^ w.length) (fun _ => 0) ++ List.replicate (rest - 2 ^ w.length) 0 := by
    rw [tableOf, List.map_const', List.length_range, List.replicate_append_replicate, Nat.add_sub_cancel' h]
  have hzip : ∀ f : F → F, List.zipWith (fun x _ => f x) (tableOf (2 ^ w.length) (ltAt w))
      (List.replicate rest (0 : F)) = tableOf (2 ^ w.length) fun j => f (ltAt w j) := by
    intro f
    rw [hrest, ← List.append_nil (tableOf (2 ^ w.length) (ltAt w)),
      List.zipWith_append (by rw [length_tableOf, length_tableOf]), zipWith_tableOf, List.zipWith_nil_left,
      List.append_nil]
  rw [ltRound, List.take_left' length_tableOf, List.drop_left' length_tableOf, hzip, hzip, List.drop_replicate,
    List.length_cons, pow_succ, Nat.mul_comm, two_mul, tableOf_add]
  congr 2
  · exact tableOf_congr fun j hj => (ltAt_cons x w hj).1.symm
  · exact tableOf_congr fun j hj => (ltAt_cons x w hj).2.symm

theorem foldl_ltRound (w : List F) {n : Nat} (h : w.length ≤ n) :
    w.reverse.zipIdx.foldl (fun evals p => ltRound evals p.2 p.1) (List.replicate (2 ^ n) 0) =
      tableOf (2 ^ w.length) (ltAt w) ++ List.replicate (2 ^ n - 2 ^ w.length) 0 := by
  induction w with
  | nil =>
    have hzero : tableOf (2 ^ ([] : List F).length) (ltAt ([] : List F)) = List.replicate 1 0 := by
      simp [tableOf, ltAt]
    rw [List.reverse_nil, List.zipIdx_nil, List.foldl_nil, hzero, List.replicate_append_replicate,
      List.length_nil, pow_zero, Nat.add_sub_cancel' Nat.one_le_two_pow]
  | cons x w ih =>
    rw [List.length_cons] at h
    have hroom : 2 ^ w.length + 2 ^ w.length ≤ 2 ^ n :=
      (Nat.le_of_eq (by rw [pow_succ]; ring)).trans (Nat.pow_le_pow_right (by omega) h)
    rw [List.reverse_cons, List.zipIdx_append, List.foldl_append, ih (by omega), List.length_reverse,
      Nat.zero_add, List.zipIdx_singleton, List.foldl_cons, List.foldl_nil, ltRound_table x w (by omega)]
    congr 2
    rw [List.length_cons, pow_succ]
    omega

/-- The table of comparisons. -/
theorem ltEvals_eq (r : List C) :
    (ltEvals r : List F) = tableOf (2 ^ r.length) (ltAt (r.map (Challenge.into : C → F))) := by
  have h := foldl_ltRound (r.map (Challenge.into : C → F)) (n := r.length) (by rw [List.length_map])
  rw [List.length_map, Nat.sub_self, List.replicate_zero, List.append_nil] at h
  exact h

/-! ## The halves of the table -/

namespace LtPolynomial

/-- The halves list functions that make up another one, on the points left. -/
structure Represents (s : LtPolynomial F) (h l : Nat) (f : Nat → F) : Prop where
  nLoVars : s.nLoVars = l
  halves : ∃ lt eq lo : Nat → F, s.ltHi = tableOf (2 ^ h) lt ∧ s.eqHi = tableOf (2 ^ h) eq ∧
    s.ltLo = tableOf (2 ^ l) lo ∧
    ∀ i < 2 ^ h, ∀ j < 2 ^ l, f (i * 2 ^ l + j) = lt i + eq i * lo j

theorem Represents.getBoundCoeff {s : LtPolynomial F} {h l : Nat} {f : Nat → F} (hs : s.Represents h l f)
    {i : Nat} (hi : i < 2 ^ (h + l)) : s.getBoundCoeff i = .some (f i) := by
  obtain ⟨rfl, lt, eq, lo, hhi, heq, hlo, hf⟩ := hs
  have hiHi : i / 2 ^ s.nLoVars < 2 ^ h := Nat.div_lt_of_lt_mul (by rwa [← pow_add, Nat.add_comm])
  have hiLo : i % 2 ^ s.nLoVars < 2 ^ s.nLoVars := Nat.mod_lt _ (Nat.two_pow_pos _)
  have hsplit := hf _ hiHi _ hiLo
  rw [Nat.div_add_mod'] at hsplit
  rw [LtPolynomial.getBoundCoeff, hhi, heq, hlo]
  simp only [Nat.shiftRight_eq_div_pow, Nat.one_shiftLeft, Nat.and_two_pow_sub_one_eq_mod,
    getElem?_tableOf hiHi, getElem?_tableOf hiLo, Option.bind_eq_bind, Option.bind_some, hsplit]

theorem Represents.congr {s : LtPolynomial F} {h l : Nat} {f g : Nat → F} (hs : s.Represents h l f)
    (hfg : ∀ i < 2 ^ (h + l), f i = g i) : s.Represents h l g := by
  obtain ⟨hn, lt, eq, lo, hhi, heq, hlo, hf⟩ := hs
  refine ⟨hn, lt, eq, lo, hhi, heq, hlo, fun i hi j hj => ?_⟩
  rw [← hf i hi j hj, hfg _ (by rw [pow_add]; exact split_lt hi hj)]

theorem line_add_mul (r a b c d x : F) :
    line r (a + c * x) (b + d * x) = line r a b + line r c d * x := by
  simp only [line]
  ring

theorem line_mul (r a c x y : F) : line r (a + c * x) (a + c * y) = a + c * line r x y := by
  simp only [line]
  ring

theorem bind_tableOf_succ (order : BindingOrder) (h : Nat) (f : Nat → F) (r : F) :
    DensePolynomial.bind order (tableOf (2 ^ (h + 1)) f) r = tableOf (2 ^ h) (bindFn order (2 ^ h) r f) := by
  rw [pow_succ, Nat.mul_comm, DensePolynomial.bind_tableOf]

variable {s : LtPolynomial F} {h l : Nat} {f : Nat → F}

/-- The highest variable is of the high half, while it has any. -/
theorem Represents.bindHighToLow_succ (hs : s.Represents (h + 1) l f) (r : F) :
    (s.bindHighToLow r).Represents h l (bindFn .highToLow (2 ^ (h + l)) r f) := by
  obtain ⟨hn, lt, eq, lo, hhi, heq, hlo, hf⟩ := hs
  have hvars : s.ltHi.length.log2 ≠ 0 := by
    rw [hhi, length_tableOf, Nat.log2_two_pow]
    omega
  rw [LtPolynomial.bindHighToLow, if_pos hvars, hhi, heq, bind_tableOf_succ, bind_tableOf_succ]
  refine ⟨hn, _, _, lo, rfl, rfl, hlo, fun i hi j hj => ?_⟩
  have hupper : 2 ^ (h + l) + (i * 2 ^ l + j) = (2 ^ h + i) * 2 ^ l + j := by rw [pow_add]; ring
  have hpow : 2 ^ (h + 1) = 2 ^ h + 2 ^ h := by rw [pow_succ]; ring
  simp only [bindFn, BindingOrder.pair, hupper]
  rw [hf i (by omega) j hj, hf (2 ^ h + i) (by omega) j hj, line_add_mul]

theorem Represents.bindHighToLow_zero (hs : s.Represents 0 (l + 1) f) (r : F) :
    (s.bindHighToLow r).Represents 0 l (bindFn .highToLow (2 ^ (0 + l)) r f) := by
  obtain ⟨hn, lt, eq, lo, hhi, heq, hlo, hf⟩ := hs
  have hvars : ¬ s.ltHi.length.log2 ≠ 0 := by
    rw [hhi, length_tableOf, Nat.log2_two_pow]
    omega
  rw [LtPolynomial.bindHighToLow, if_neg hvars, hlo, bind_tableOf_succ]
  refine ⟨by simp only [hn]; omega, lt, eq, _, hhi, heq, rfl, fun i hi j hj => ?_⟩
  obtain rfl : i = 0 := by omega
  have hpow : 2 ^ (l + 1) = 2 ^ l + 2 ^ l := by rw [pow_succ]; ring
  have hfirst := hf 0 (by omega) j (by omega)
  have hsecond := hf 0 (by omega) (2 ^ l + j) (by omega)
  rw [Nat.zero_mul, Nat.zero_add] at hfirst hsecond
  simp only [bindFn, BindingOrder.pair, Nat.zero_mul, Nat.zero_add]
  rw [hfirst, hsecond, line_mul]

/-- The lowest variable is of the low half, while it has any. -/
theorem Represents.bindLowToHigh_succ (hs : s.Represents h (l + 1) f) (r : F) :
    (s.bindLowToHigh r).Represents h l (bindFn .lowToHigh (2 ^ (h + l)) r f) := by
  obtain ⟨hn, lt, eq, lo, hhi, heq, hlo, hf⟩ := hs
  rw [LtPolynomial.bindLowToHigh, if_pos (by omega), hlo, bind_tableOf_succ]
  refine ⟨by simp only [hn]; omega, lt, eq, _, hhi, heq, rfl, fun i hi j hj => ?_⟩
  have hpow : 2 ^ (l + 1) = 2 * 2 ^ l := by rw [pow_succ]; ring
  have heven : 2 * (i * 2 ^ l + j) = i * 2 ^ (l + 1) + 2 * j := by rw [hpow]; ring
  simp only [bindFn, BindingOrder.pair, heven, Nat.add_assoc]
  rw [hf i hi (2 * j) (by omega), hf i hi (2 * j + 1) (by omega), line_mul]

theorem Represents.bindLowToHigh_zero (hs : s.Represents (h + 1) 0 f) (r : F) :
    (s.bindLowToHigh r).Represents h 0 (bindFn .lowToHigh (2 ^ (h + 0)) r f) := by
  obtain ⟨hn, lt, eq, lo, hhi, heq, hlo, hf⟩ := hs
  rw [LtPolynomial.bindLowToHigh, if_neg (by omega), hhi, heq, bind_tableOf_succ, bind_tableOf_succ]
  refine ⟨hn, _, _, lo, rfl, rfl, hlo, fun i hi j hj => ?_⟩
  have hpow : 2 ^ (h + 1) = 2 * 2 ^ h := by rw [pow_succ]; ring
  obtain rfl : j = 0 := by omega
  simp only [bindFn, BindingOrder.pair, pow_zero, Nat.mul_one, Nat.add_zero]
  have hfirst := hf (2 * i) (by omega) 0 (by omega)
  have hsecond := hf (2 * i + 1) (by omega) 0 (by omega)
  rw [pow_zero, Nat.mul_one, Nat.add_zero] at hfirst hsecond
  rw [hfirst, hsecond, line_add_mul]

/-- A binding of either order takes a variable of one of the halves. -/
theorem Represents.bind (order : BindingOrder) (hs : s.Represents h l f) (hvars : 0 < h + l) (r : F) :
    ∃ h' l', h' + l' + 1 = h + l ∧
      (s.bind order r).Represents h' l' (bindFn order (2 ^ (h' + l')) r f) := by
  cases order with
  | highToLow =>
    cases h with
    | zero =>
      obtain ⟨l, rfl⟩ : ∃ l', l = l' + 1 := ⟨l - 1, by omega⟩
      exact ⟨0, l, by omega, hs.bindHighToLow_zero r⟩
    | succ h => exact ⟨h, l, by omega, hs.bindHighToLow_succ r⟩
  | lowToHigh =>
    cases l with
    | zero =>
      obtain ⟨h, rfl⟩ : ∃ h', h = h' + 1 := ⟨h - 1, by omega⟩
      exact ⟨h, 0, by omega, hs.bindLowToHigh_zero r⟩
    | succ l => exact ⟨h, l, by omega, hs.bindLowToHigh_succ r⟩

theorem Represents.bindAll (order : BindingOrder) (rs : List F) {s : LtPolynomial F} {h l : Nat} {f : Nat → F}
    (hs : s.Represents h l f) (hvars : rs.length ≤ h + l) :
    ∃ h' l', h' + l' + rs.length = h + l ∧
      (rs.foldl (LtPolynomial.bind order) s).Represents h' l' (boundFn order (2 ^ (h + l)) rs f) := by
  induction rs generalizing s h l f with
  | nil => exact ⟨h, l, rfl, hs⟩
  | cons r rs ih =>
    rw [List.length_cons] at hvars
    obtain ⟨h1, l1, hsum, hs1⟩ := hs.bind order (by omega) r
    obtain ⟨h2, l2, hsum', hs2⟩ := ih hs1 (by omega)
    refine ⟨h2, l2, by rw [List.length_cons]; omega, ?_⟩
    have hhalf : 2 ^ (h + l) / 2 = 2 ^ (h1 + l1) := by rw [← hsum, pow_succ]; omega
    rw [boundFn, hhalf]
    exact hs2

end LtPolynomial

/-! ## The new polynomial -/

namespace LtPolynomial

/-- The first coordinates are the high half's. -/
theorem new_represents (rCycle : List C) :
    ∃ s : LtPolynomial F, new rCycle = .some s ∧
      s.Represents (rCycle.length / 2) (rCycle.length - rCycle.length / 2)
        (ltAt (rCycle.map (Challenge.into : C → F))) := by
  have hhi : (rCycle.take (rCycle.length / 2)).length = rCycle.length / 2 := by
    rw [List.length_take]
    omega
  have hlo : (rCycle.drop (rCycle.length / 2)).length = rCycle.length - rCycle.length / 2 := List.length_drop
  have heq : (EqPolynomial.evals (rCycle.take (rCycle.length / 2)) : List F) = tableOf (2 ^ (rCycle.length / 2))
      (eqAt ((rCycle.take (rCycle.length / 2)).map Challenge.into)) := by
    have htable := tableOf_getD (eqTable ((rCycle.take (rCycle.length / 2)).map (Challenge.into : C → F))) 0
    rw [length_eqTable, List.length_map, hhi] at htable
    rw [EqPolynomial.evals_eq, ← htable]
    rfl
  refine ⟨⟨tableOf (2 ^ (rCycle.length - rCycle.length / 2)) (ltAt _), tableOf (2 ^ (rCycle.length / 2)) (ltAt _),
    tableOf (2 ^ (rCycle.length / 2)) (eqAt _), rCycle.length - rCycle.length / 2⟩, ?_, rfl,
    ltAt ((rCycle.take (rCycle.length / 2)).map Challenge.into),
    eqAt ((rCycle.take (rCycle.length / 2)).map Challenge.into),
    ltAt ((rCycle.drop (rCycle.length / 2)).map Challenge.into), rfl, rfl, rfl, ?_⟩
  · simp only [new, ltEvals_eq, heq, hhi, hlo, DensePolynomial.new_tableOf, Option.bind_eq_bind, Option.bind_some]
  · intro i hi j hj
    have hsplit : rCycle.map (Challenge.into : C → F) =
        (rCycle.take (rCycle.length / 2)).map Challenge.into ++
          (rCycle.drop (rCycle.length / 2)).map Challenge.into := by
      rw [← List.map_append, List.take_append_drop]
    have happ := ltAt_append ((rCycle.take (rCycle.length / 2)).map (Challenge.into : C → F))
      ((rCycle.drop (rCycle.length / 2)).map Challenge.into) (i := i) (j := j)
      (by rwa [List.length_map, hhi]) (by rwa [List.length_map, hlo])
    rw [List.length_map, hlo] at happ
    rw [hsplit, happ]

/-- The dense table of comparisons. -/
def dense (rCycle : List C) : List F :=
  tableOf (2 ^ rCycle.length) (ltAt (rCycle.map (Challenge.into : C → F)))

/-- After any number of bindings the coefficients, and the evaluations made from them, are
those of the dense table. -/
theorem bindAll_dense (rCycle : List C) (order : BindingOrder) (rs : List F) (h : rs.length ≤ rCycle.length) :
    ∃ s : LtPolynomial F, new rCycle = .some s ∧
      (∀ i < 2 ^ (rCycle.length - rs.length), (rs.foldl (bind order) s).getBoundCoeff i =
        (DensePolynomial.bindAll order (dense rCycle) rs)[i]?) ∧
      ∀ index < 2 ^ (rCycle.length - rs.length) / 2, ∀ degree order',
        sumcheckEvals (rs.foldl (bind order) s).getBoundCoeff (2 ^ (rCycle.length - rs.length)) index degree order' =
          sumcheckEvals ((DensePolynomial.bindAll order (dense rCycle) rs)[·]?)
            (2 ^ (rCycle.length - rs.length)) index degree order' := by
  obtain ⟨s, hnew, hs⟩ := new_represents (F := F) rCycle
  have hvars : rCycle.length / 2 + (rCycle.length - rCycle.length / 2) = rCycle.length := by omega
  obtain ⟨h', l', hsum, hbound⟩ := hs.bindAll order rs (by omega)
  have hcoeff : ∀ i < 2 ^ (rCycle.length - rs.length), (rs.foldl (bind order) s).getBoundCoeff i =
      (DensePolynomial.bindAll order (dense rCycle) rs)[i]? := by
    intro i hi
    have hleft : h' + l' = rCycle.length - rs.length := by omega
    rw [hbound.getBoundCoeff (by rwa [hleft]), dense, DensePolynomial.bindAll_tableOf _ _ _ (pow_dvd_pow 2 h),
      Nat.pow_div h (by omega), getElem?_tableOf hi, hvars]
  exact ⟨s, hnew, hcoeff, fun index hindex degree order' => sumcheckEvals_congr hcoeff hindex degree order'⟩

end LtPolynomial

/-! ## The mask -/

namespace RangeMaskPolynomial

/-- The multilinear extension, at a point, of being below a bound. -/
def belowAt (w : List F) (bound : Nat) : F := ∑ i ∈ range bound, eqAt w i

/-- The multilinear extension of the indicator of a range. -/
def indicatorMle (rangeStart rangeEnd : Nat) (w : List F) : F :=
  ∑ i ∈ range (2 ^ w.length), if rangeStart ≤ i ∧ i < rangeEnd then eqAt w i else 0

/-- A bound with its highest bit set has all points below that have it clear. -/
theorem belowAt_cons (x : F) (w : List F) {bound : Nat} (h : bound ≤ 2 ^ w.length) :
    belowAt (x :: w) bound = (1 - x) * belowAt w bound ∧
      belowAt (x :: w) (2 ^ w.length + bound) = (1 - x) + x * belowAt w bound := by
  have hclear : ∀ i < 2 ^ w.length, eqAt (x :: w) i = (1 - x) * eqAt w i := by
    intro i hi
    have h := eqAt_append [x] w 0 hi
    rwa [Nat.zero_mul, Nat.zero_add, (eqAt_singleton x).1] at h
  have hset : ∀ i < 2 ^ w.length, eqAt (x :: w) (2 ^ w.length + i) = x * eqAt w i := by
    intro i hi
    have h := eqAt_append [x] w 1 hi
    rwa [Nat.one_mul, (eqAt_singleton x).2] at h
  constructor
  · rw [belowAt, belowAt, mul_sum]
    exact sum_congr rfl fun i hi => hclear i (by have := mem_range.mp hi; omega)
  · rw [belowAt, belowAt, sum_range_add, mul_sum]
    refine congrArg₂ (· + ·) ?_ (sum_congr rfl fun i hi => hset i (by have := mem_range.mp hi; omega))
    rw [sum_congr rfl fun i hi => hclear i (mem_range.mp hi), ← mul_sum, sum_eqAt, mul_one]

/-- The loop adds, times the factor of the coordinates before, what is below the bits left. -/
theorem foldl_ltStep (r : List F) {bits : Nat} (h : bits < 2 ^ r.length) (lt eq : F) :
    (r.foldl ltStep (⟨bits, r.length⟩, lt, eq)).2.1 = lt + eq * belowAt r bits := by
  induction r generalizing bits lt eq with
  | nil =>
    obtain rfl : bits = 0 := by rw [List.length_nil, pow_zero] at h; omega
    rw [List.foldl_nil, belowAt, sum_range_zero, mul_zero, add_zero]
  | cons x w ih =>
    rw [List.length_cons, pow_succ] at h
    have hstep : ltStep (⟨bits, (x :: w).length⟩, lt, eq) x =
        if bits / 2 ^ w.length = 1 then (⟨bits % 2 ^ w.length, w.length⟩, lt + eq * (1 - x), eq * x)
        else (⟨bits % 2 ^ w.length, w.length⟩, lt, eq * (1 - x)) := by
      have hbit : bits / 2 ^ w.length % 2 = bits / 2 ^ w.length :=
        Nat.mod_eq_of_lt (Nat.div_lt_of_lt_mul h)
      simp only [ltStep, LookupBits.popMsb, List.length_cons, Nat.add_sub_cancel, hbit]
    have hmod : bits % 2 ^ w.length < 2 ^ w.length := Nat.mod_lt _ (Nat.two_pow_pos _)
    rw [List.foldl_cons, hstep]
    have hdiv := Nat.div_add_mod bits (2 ^ w.length)
    by_cases hset : bits / 2 ^ w.length = 1
    · rw [hset, Nat.mul_one] at hdiv
      rw [if_pos hset, ih hmod, ← hdiv, Nat.add_mod_left, Nat.mod_eq_of_lt hmod, (belowAt_cons x w hmod.le).2]
      ring
    · have hclear : bits / 2 ^ w.length = 0 :=
        Nat.lt_one_iff.mp (lt_of_le_of_ne (Nat.lt_succ_iff.mp (Nat.div_lt_of_lt_mul h)) hset)
      rw [hclear, Nat.mul_zero, Nat.zero_add] at hdiv
      rw [if_neg hset, ih hmod, hdiv, (belowAt_cons x w (by omega)).1]
      ring

theorem ltBound_eq {bound : Nat} {r : List F} (h : bound < 2 ^ r.length) : ltBound bound r = belowAt r bound := by
  rw [ltBound, Nat.mod_eq_of_lt h, foldl_ltStep r h, zero_add, one_mul]

/-- A range is what is below its end without what is below its start. -/
theorem indicatorMle_eq {rangeStart rangeEnd : Nat} {w : List F} (hle : rangeStart ≤ rangeEnd)
    (h : rangeEnd ≤ 2 ^ w.length) :
    indicatorMle rangeStart rangeEnd w = belowAt w rangeEnd - belowAt w rangeStart := by
  have hsplit : ∀ i ∈ range (2 ^ w.length), (if rangeStart ≤ i ∧ i < rangeEnd then eqAt w i else 0) =
      (if i < rangeEnd then eqAt w i else 0) - if i < rangeStart then eqAt w i else 0 := by
    intro i _
    split_ifs <;> first | omega | simp
  rw [indicatorMle, sum_congr rfl hsplit, sum_sub_distrib, sum_range_block h, sum_range_block (hle.trans h),
    belowAt, belowAt]

/-- The mask of a range within the domain is the extension of the range's indicator; every
other mask panics. -/
theorem evaluateMle_eq (rangeStart rangeEnd : Nat) (r : List C) :
    (new rangeStart rangeEnd).bind (·.evaluateMle r) =
      if rangeStart < rangeEnd ∧ rangeEnd < 2 ^ r.length then
        .some (indicatorMle rangeStart rangeEnd (r.map (Challenge.into : C → F)))
      else .none := by
  have hlen : (r.map (Challenge.into : C → F)).length = r.length := List.length_map ..
  rw [new]
  by_cases hstart : rangeStart < rangeEnd
  · by_cases hend : rangeEnd < 2 ^ r.length
    · rw [if_pos hstart, if_pos ⟨hstart, hend⟩, Option.bind_some, evaluateMle, if_pos hend,
        indicatorMle_eq hstart.le (by rw [hlen]; exact hend.le), ltBound_eq (by rwa [hlen]),
        ltBound_eq (by rw [hlen]; exact hstart.trans hend)]
    · rw [if_pos hstart, if_neg fun h => hend h.2, Option.bind_some, evaluateMle, if_neg hend]
  · rw [if_neg hstart, if_neg fun h => hstart h.1, Option.bind_none]

end RangeMaskPolynomial

/-- **Comparisons**: after any number of bindings in either order the less-than polynomial
is the dense table of comparisons bound with the same challenges, and the mask of a
range that is not empty and ends within the domain extends the range's indicator. -/
theorem lt_and_mask (rCycle : List C) (order : BindingOrder) (rs : List F) (h : rs.length ≤ rCycle.length) :
    (∃ s : LtPolynomial F, LtPolynomial.new rCycle = .some s ∧
      (∀ i < 2 ^ (rCycle.length - rs.length), (rs.foldl (LtPolynomial.bind order) s).getBoundCoeff i =
        (DensePolynomial.bindAll order (LtPolynomial.dense rCycle) rs)[i]?) ∧
      ∀ index < 2 ^ (rCycle.length - rs.length) / 2, ∀ degree order',
        sumcheckEvals (rs.foldl (LtPolynomial.bind order) s).getBoundCoeff (2 ^ (rCycle.length - rs.length))
            index degree order' =
          sumcheckEvals ((DensePolynomial.bindAll order (LtPolynomial.dense rCycle) rs)[·]?)
            (2 ^ (rCycle.length - rs.length)) index degree order') ∧
    ∀ (rangeStart rangeEnd : Nat) (r : List C), r.length < 128 →
      (RangeMaskPolynomial.new rangeStart rangeEnd).bind (·.evaluateMle r) =
        if rangeStart < rangeEnd ∧ rangeEnd < 2 ^ r.length then
          .some (RangeMaskPolynomial.indicatorMle rangeStart rangeEnd (r.map (Challenge.into : C → F)))
        else .none :=
  ⟨LtPolynomial.bindAll_dense rCycle order rs h, fun rangeStart rangeEnd r _ =>
    RangeMaskPolynomial.evaluateMle_eq rangeStart rangeEnd r⟩

theorem lt_and_mask_three :
    (∃ s : LtPolynomial (ZMod 7), LtPolynomial.new ([2, 3, 5] : List (ZMod 7)) = .some s ∧
      ∀ i < 2, (([4, 6] : List (ZMod 7)).foldl (LtPolynomial.bind .highToLow) s).getBoundCoeff i =
        (DensePolynomial.bindAll .highToLow (LtPolynomial.dense ([2, 3, 5] : List (ZMod 7))) [4, 6])[i]?) ∧
    (RangeMaskPolynomial.new 1 3).bind (·.evaluateMle ([3, 5] : List (ZMod 7))) =
      .some (RangeMaskPolynomial.indicatorMle 1 3 ([3, 5] : List (ZMod 7))) := by
  obtain ⟨⟨s, hnew, hcoeff, -⟩, hmask⟩ :=
    lt_and_mask ([2, 3, 5] : List (ZMod 7)) .highToLow ([4, 6] : List (ZMod 7)) (by decide)
  exact ⟨⟨s, hnew, hcoeff⟩, hmask 1 3 [3, 5] (by decide)⟩

/-- A range to the end of the domain, and one that is empty, have no mask. -/
theorem mask_panics :
    (RangeMaskPolynomial.new 1 2).bind (·.evaluateMle ([3] : List (ZMod 7))) ≠
        .some (RangeMaskPolynomial.indicatorMle 1 2 ([3] : List (ZMod 7))) ∧
      (RangeMaskPolynomial.new 1 1).bind (·.evaluateMle ([3] : List (ZMod 7))) ≠
        .some (RangeMaskPolynomial.indicatorMle 1 1 ([3] : List (ZMod 7))) := by
  constructor
  · exact fun h => Option.some_ne_none _ h.symm
  · exact fun h => Option.some_ne_none _ h.symm

end LightningJolt
