/-
The builders of the table of the equality polynomial as the loops they are
(`jolt-core/src/poly/eq_poly.rs`, `jolt-core/src/utils/expanding_table.rs`): in one
vector or in one for each prefix or suffix, doubled from below or from above.
-/
import LightningJolt.SparseEval

namespace LightningJolt

variable {F C : Type} [JoltField F] [Challenge C F]

namespace EqPolynomial

/-! ## The loops -/

/-- `evals[i] = x`. -/
def assign (evals : List F) (i : Nat) (x : F) : Option (List F) :=
  if i < evals.length then .some (evals.set i x) else .none

/-- The inner loop of `evals_serial`, from the last pair of entries down. -/
def serialRound (r : F) : Nat → List F → Option (List F)
  | 0, evals => .some evals
  | m + 1, evals => do
    let i := 2 * m + 1
    let scalar ← evals[i / 2]?
    let evals ← assign evals i (scalar * r)
    let evals ← assign evals (i - 1) (scalar - (← evals[i]?))
    serialRound r m evals

/-- The loop of `evals_serial` over the coordinates. -/
def serialRounds : List F → Nat → List F → Option (List F)
  | [], _, evals => .some evals
  | r :: rs, size, evals => do serialRounds rs (2 * size) (← serialRound r size evals)

def evalsSerialInPlace (r : List C) (scalingFactor : Option F) : Option (List F) :=
  serialRounds (r.map Challenge.into) 1 (List.replicate (2 ^ r.length) (scalingFactor.getD 1))

/-- The inner loop of `evals_serial_cached`, from a layer to the next. -/
def cachedRound (r : F) (layer : List F) : Nat → List F → Option (List F)
  | 0, next => .some next
  | m + 1, next => do
    let i := 2 * m + 1
    let scalar ← layer[i / 2]?
    let next ← assign next i (scalar * r)
    let next ← assign next (i - 1) (scalar - (← next[i]?))
    cachedRound r layer m next

/-- The loop of `evals_serial_cached`: the layers from the given one on. -/
def cachedRounds (fill : F) : List F → Nat → List F → Option (List (List F))
  | [], _, layer => .some [layer]
  | r :: rs, size, layer => do
    let next ← cachedRound r layer size (List.replicate (2 * size) fill)
    .some (layer :: (← cachedRounds fill rs (2 * size) next))

def evalsSerialCachedInPlace (r : List C) (scalingFactor : Option F) : Option (List (List F)) :=
  cachedRounds (scalingFactor.getD 1) (r.map Challenge.into) 1 [scalingFactor.getD 1]

/-- The inner loop of `evals_serial_cached_rev`, from the given index up. -/
def cachedRevRound (r : F) (layer : List F) (multiple : Nat) : Nat → Nat → List F → Option (List F)
  | _, 0, next => .some next
  | i, m + 1, next => do
    let scalar ← layer[i]?
    let next ← assign next (i + multiple) (scalar * r)
    let next ← assign next i (scalar - (← next[i + multiple]?))
    cachedRevRound r layer multiple (i + 1) m next

def cachedRevRounds (fill : F) : List F → Nat → List F → Option (List (List F))
  | [], _, layer => .some [layer]
  | r :: rs, size, layer => do
    let next ← cachedRevRound r layer size 0 size (List.replicate (2 * size) fill)
    .some (layer :: (← cachedRevRounds fill rs (2 * size) next))

def evalsSerialCachedRevInPlace (r : List C) (scalingFactor : Option F) : Option (List (List F)) :=
  cachedRevRounds (scalingFactor.getD 1) (r.map Challenge.into).reverse 1 [scalingFactor.getD 1]

/-- The loop over the zipped halves: `*y = *x * r; *x -= *y`. -/
def pairUpdate (r : F) : List F → List F → List F × List F
  | x :: xs, _ :: ys =>
    let y := x * r
    let (xs, ys) := pairUpdate r xs ys
    ((x - y) :: xs, y :: ys)
  | xs, ys => (xs, ys)

/-- The loop of `evals_parallel`. -/
def parallelRounds : List F → Nat → List F → Option (List F)
  | [], _, evals => .some evals
  | r :: rs, size, evals => do
    guard (size ≤ evals.length ∧ size ≤ (evals.drop size).length)
    let (left, right) := pairUpdate r (evals.take size) ((evals.drop size).take size)
    parallelRounds rs (2 * size) (left ++ right ++ (evals.drop size).drop size)

def evalsParallelInPlace (r : List C) (scalingFactor : Option F) : Option (List F) := do
  let evals ← assign (List.replicate (2 ^ r.length) 0) 0 (scalingFactor.getD 1)
  parallelRounds (r.map Challenge.into).reverse 1 evals

end EqPolynomial

/-! ## The table that grows -/

/-- `ExpandingTable`. -/
structure ExpandingTable (F : Type) where
  bindingOrder : BindingOrder
  len : Nat
  values : List F
  scratchSpace : List F

namespace ExpandingTable

def new (capacity : Nat) (bindingOrder : BindingOrder) : ExpandingTable F where
  bindingOrder := bindingOrder
  len := 0
  values := List.replicate capacity 0
  scratchSpace := match bindingOrder with
    | .lowToHigh => []
    | .highToLow => List.replicate capacity 0

def reset (t : ExpandingTable F) (value : F) : Option (ExpandingTable F) := do
  .some { t with values := ← EqPolynomial.assign t.values 0 value, len := 1 }

def cloneValues (t : ExpandingTable F) : List F := t.values.take t.len

/-- The loop over the values and the pairs of the scratch space. In parallel a last pair
that is cut off is a panic, else it is left out. -/
def chunkUpdate (parallel : Bool) (r : F) : List F → List F → Option (List F)
  | v :: vs, _ :: _ :: rest => do
    let eval1 := r * v
    .some ((v - eval1) :: eval1 :: (← chunkUpdate parallel r vs rest))
  | _ :: _, [d] => if parallel then .none else .some [d]
  | _, rest => .some rest

/-- `update`, in parallel from `PAR_THRESHOLD` on. -/
def update (t : ExpandingTable F) (r : F) : Option (ExpandingTable F) := do
  guard (t.len ≤ t.values.length)
  match t.bindingOrder with
  | .lowToHigh =>
    let (left, right) := EqPolynomial.pairUpdate r (t.values.take t.len) (t.values.drop t.len)
    .some { t with values := left ++ right, len := 2 * t.len }
  | .highToLow => do
    let scratch ← chunkUpdate (4096 ≤ t.len) r (t.values.take t.len) t.scratchSpace
    .some { t with values := scratch, scratchSpace := t.values, len := 2 * t.len }

/-- A table reset to a value and updated with each coordinate. -/
def fill (capacity : Nat) (bindingOrder : BindingOrder) (value : F) (r : List C) :
    Option (ExpandingTable F) := do
  (r.map Challenge.into).foldlM update (← reset (new capacity bindingOrder) value)

end ExpandingTable

namespace EqPolynomial

/-! ## A round in one vector -/

omit [JoltField F] in
theorem assign_eq {evals : List F} {i : Nat} (x : F) (h : i < evals.length) :
    assign evals i x = .some (evals.set i x) := if_pos h

/-- A round doubles what is filled, and one round less is to come. -/
theorem room_succ (size rounds : Nat) : size * 2 ^ (rounds + 1) = 2 * size * 2 ^ rounds := by
  rw [Nat.pow_succ]
  ring

theorem le_room (size rounds : Nat) : size ≤ size * 2 ^ rounds :=
  Nat.le_mul_of_pos_right _ (Nat.two_pow_pos _)

/-- The two assignments of an iteration, the second from what the first has put. -/
theorem assign_pair {α : Type} {evals : List F} {i j : Nat} (hi : i < evals.length) (hj : j < evals.length)
    (x scalar : F) (f : List F → Option α) :
    (do
      let evals ← assign evals i x
      let evals ← assign evals j (scalar - (← evals[i]?))
      f evals) = f ((evals.set i x).set j (scalar - x)) := by
  have hread : (evals.set i x)[i]? = .some x := List.getElem?_set_self hi
  have hassign : assign (evals.set i x) j (scalar - x) = .some ((evals.set i x).set j (scalar - x)) :=
    assign_eq _ (by rwa [List.length_set])
  rw [assign_eq x hi]
  simp only [Option.bind_eq_bind, Option.bind_some, hread, hassign]

theorem expandLow_append (xs ys : List F) (r : F) :
    expandLow (xs ++ ys) r = expandLow xs r ++ expandLow ys r := List.flatMap_append

@[simp] theorem length_expandLow (evals : List F) (r : F) : (expandLow evals r).length = evals.length * 2 := by
  rw [expandLow_eq, length_tensor, eqPair]
  rfl

omit [JoltField F] in
/-- Assigning a pair leaves what is in front of it and what is behind it. -/
theorem set_pair {evals : List F} {m : Nat} (h : 2 * m + 2 ≤ evals.length) (a b : F) :
    ((evals.set (2 * m + 1) b).set (2 * m) a).take m = evals.take m ∧
      ((evals.set (2 * m + 1) b).set (2 * m) a).drop (2 * m) = a :: b :: evals.drop (2 * m + 2) := by
  constructor
  · rw [List.take_set_of_le (by omega), List.take_set_of_le (by omega)]
  · refine List.ext_getElem? fun i => ?_
    rw [List.getElem?_drop, List.getElem?_set, List.getElem?_set, List.length_set]
    rcases i with _ | _ | i
    · simp [show 2 * m < evals.length by omega]
    · simp [show 2 * m + 1 < evals.length by omega]
    · rw [if_neg (by omega), if_neg (by omega)]
      simp only [List.getElem?_cons_succ, List.getElem?_drop]
      congr 1
      omega

/-- The entries below `m` are doubled, those behind the pairs stay. -/
theorem serialRound_eq (r : F) {m : Nat} {evals : List F} (h : 2 * m ≤ evals.length) :
    serialRound r m evals = .some (expandLow (evals.take m) r ++ evals.drop (2 * m)) := by
  induction m generalizing evals with
  | zero => rfl
  | succ m ih =>
    have hscalar : evals[(2 * m + 1) / 2]? = .some evals[m] := by
      rw [show (2 * m + 1) / 2 = m by omega]
      exact List.getElem?_eq_getElem _
    have hstep : serialRound r (m + 1) evals =
        serialRound r m ((evals.set (2 * m + 1) (evals[m] * r)).set (2 * m) (evals[m] - evals[m] * r)) := by
      simp only [serialRound, hscalar, Option.bind_eq_bind, Option.bind_some]
      exact assign_pair (by omega) (by omega) _ _ (serialRound r m)
    obtain ⟨htake, hdrop⟩ := set_pair (by omega) (evals[m] - evals[m] * r) (evals[m] * r)
    rw [hstep, ih (by simp only [List.length_set]; omega), htake, hdrop, List.take_succ_eq_append_getElem (by omega),
      expandLow_append]
    simp only [expandLow, List.flatMap_cons, List.flatMap_nil, List.append_assoc, List.cons_append,
      List.nil_append, show 2 * (m + 1) = 2 * m + 2 by omega]

/-- The loop: the table so far doubled with each coordinate. -/
theorem serialRounds_eq {rs : List F} {size : Nat} {evals : List F}
    (h : evals.length = size * 2 ^ rs.length) :
    serialRounds rs size evals = .some (rs.foldl expandLow (evals.take size)) := by
  induction rs generalizing size evals with
  | nil =>
    rw [List.length_nil, Nat.pow_zero, Nat.mul_one] at h
    rw [serialRounds, List.foldl_nil, List.take_of_length_le h.le]
  | cons r rs ih =>
    rw [List.length_cons, room_succ] at h
    have hle : 2 * size ≤ evals.length := (le_room _ _).trans h.ge
    have hlow : (expandLow (evals.take size) r).length = 2 * size := by
      rw [length_expandLow, List.length_take]
      omega
    rw [serialRounds, serialRound_eq r hle, Option.bind_eq_bind, Option.bind_some, ih, List.foldl_cons,
      List.take_append_of_le_length hlow.ge, List.take_of_length_le hlow.le]
    rw [List.length_append, hlow, List.length_drop]
    omega

theorem evalsSerialInPlace_eq (r : List C) (k : Option F) :
    evalsSerialInPlace r k = .some (evalsSerial r k) := by
  rw [evalsSerialInPlace, serialRounds_eq (by simp)]
  have hone : (List.replicate (2 ^ r.length) (k.getD 1)).take 1 = [k.getD 1] := by
    rw [List.take_replicate, Nat.min_eq_left Nat.one_le_two_pow]
    rfl
  rw [hone]
  rfl

/-! ## A round into the next layer -/

theorem cachedRound_eq (r : F) {layer next : List F} {m : Nat} (hm : m ≤ layer.length)
    (h : 2 * m ≤ next.length) :
    cachedRound r layer m next = .some (expandLow (layer.take m) r ++ next.drop (2 * m)) := by
  induction m generalizing next with
  | zero => rfl
  | succ m ih =>
    have hscalar : layer[(2 * m + 1) / 2]? = .some layer[m] := by
      rw [show (2 * m + 1) / 2 = m by omega]
      exact List.getElem?_eq_getElem _
    have hstep : cachedRound r layer (m + 1) next = cachedRound r layer m
        ((next.set (2 * m + 1) (layer[m] * r)).set (2 * m) (layer[m] - layer[m] * r)) := by
      simp only [cachedRound, hscalar, Option.bind_eq_bind, Option.bind_some]
      exact assign_pair (by omega) (by omega) _ _ (cachedRound r layer m)
    obtain ⟨-, hdrop⟩ := set_pair (by omega) (layer[m] - layer[m] * r) (layer[m] * r)
    rw [hstep, ih (by omega) (by simp only [List.length_set]; omega), hdrop,
      List.take_succ_eq_append_getElem (by omega), expandLow_append]
    simp only [expandLow, List.flatMap_cons, List.flatMap_nil, List.append_assoc, List.cons_append,
      List.nil_append, show 2 * (m + 1) = 2 * m + 2 by omega]

theorem cachedRounds_eq (fill : F) {rs : List F} {size : Nat} {layer : List F} (h : layer.length = size) :
    cachedRounds fill rs size layer = .some (rs.scanl expandLow layer) := by
  induction rs generalizing size layer with
  | nil => rfl
  | cons r rs ih =>
    have hround := @cachedRound_eq F _ r layer (List.replicate (2 * size) fill) size (by omega) (by rw [List.length_replicate])
    rw [List.take_of_length_le h.le, List.drop_of_length_le (by rw [List.length_replicate]),
      List.append_nil] at hround
    rw [cachedRounds, hround, Option.bind_eq_bind, Option.bind_some, ih (by rw [length_expandLow]; omega),
      List.scanl_cons]
    rfl

theorem evalsSerialCachedInPlace_eq (r : List C) (k : Option F) :
    evalsSerialCachedInPlace r k = .some (evalsSerialCached r k) := cachedRounds_eq _ rfl

/-! ## A round in two halves -/

omit [JoltField F] in
theorem set_append_cons (xs ys : List F) (x y : F) : (xs ++ x :: ys).set xs.length y = xs ++ y :: ys := by
  rw [List.set_append_right _ _ (Nat.le_refl _), Nat.sub_self, List.set_cons_zero]

/-- What is left of the lower and of the upper half is the rest of the layer times either factor. -/
theorem cachedRevRound_eq (r : F) {done rest lows low highs high : List F} {multiple : Nat}
    (hlows : lows.length = done.length) (hhighs : highs.length = done.length)
    (hlow : low.length = rest.length) (hhigh : high.length = rest.length)
    (hmultiple : multiple = done.length + rest.length) :
    cachedRevRound r (done ++ rest) multiple done.length rest.length ((lows ++ low) ++ (highs ++ high)) =
      .some ((lows ++ rest.map fun x => x - x * r) ++ (highs ++ rest.map fun x => x * r)) := by
  induction rest generalizing done lows low highs high with
  | nil =>
    rw [List.length_nil, List.length_eq_zero_iff] at hlow hhigh
    rw [hlow, hhigh]
    rfl
  | cons x rest ih =>
    obtain ⟨l, low, rfl⟩ := List.exists_cons_of_length_eq_add_one hlow
    obtain ⟨h, high, rfl⟩ := List.exists_cons_of_length_eq_add_one hhigh
    have hscalar : (done ++ x :: rest)[done.length]? = .some x := by
      rw [List.getElem?_append_right (Nat.le_refl _), Nat.sub_self]
      rfl
    have hupper : (lows ++ l :: low) ++ (highs ++ h :: high) = ((lows ++ l :: low) ++ highs) ++ h :: high := by
      rw [List.append_assoc _ highs]
    have hsize : done.length + multiple = ((lows ++ l :: low) ++ highs).length := by
      simp only [List.length_append, hlow, hlows, hhighs, hmultiple]
      omega
    have hset : (((lows ++ l :: low) ++ (highs ++ h :: high)).set (done.length + multiple) (x * r)).set
        done.length (x - x * r) =
          ((lows ++ [x - x * r]) ++ low) ++ ((highs ++ [x * r]) ++ high) := by
      rw [hupper, hsize, set_append_cons, ← hlows, List.append_assoc, List.append_assoc, List.cons_append,
        set_append_cons]
      simp only [List.append_assoc, List.cons_append, List.nil_append]
    have hstep : cachedRevRound r (done ++ x :: rest) multiple done.length (x :: rest).length
        ((lows ++ l :: low) ++ (highs ++ h :: high)) =
          cachedRevRound r (done ++ x :: rest) multiple (done.length + 1) rest.length
            (((lows ++ [x - x * r]) ++ low) ++ ((highs ++ [x * r]) ++ high)) := by
      rw [← hset, List.length_cons]
      simp only [cachedRevRound, hscalar, Option.bind_eq_bind, Option.bind_some]
      refine assign_pair ?_ ?_ _ _ (cachedRevRound r (done ++ x :: rest) multiple (done.length + 1) rest.length)
      · rw [hupper, hsize]
        simp
      · simp only [List.length_append, List.length_cons]
        omega
    have hrest := @ih (done ++ [x]) (lows ++ [x - x * r]) low (highs ++ [x * r]) high (by simp [hlows])
      (by simp [hhighs]) (by simpa using hlow) (by simpa using hhigh) (by simp [hmultiple]; omega)
    rw [List.length_append, List.length_singleton, List.append_assoc, List.singleton_append] at hrest
    rw [hstep, hrest]
    simp only [List.map_cons, List.append_assoc, List.cons_append, List.nil_append]

theorem cachedRevRounds_eq (fill : F) {rs : List F} {size : Nat} {layer : List F} (h : layer.length = size) :
    cachedRevRounds fill rs size layer = .some (rs.scanl expandHigh layer) := by
  induction rs generalizing size layer with
  | nil => rfl
  | cons r rs ih =>
    have hround := @cachedRevRound_eq F _ r [] layer [] (List.replicate size fill) [] (List.replicate size fill)
      size rfl rfl (by simp [h]) (by simp [h]) (by simp [h])
    simp only [List.nil_append, List.length_nil, ← List.replicate_add, h, ← Nat.two_mul] at hround
    rw [cachedRevRounds, hround, Option.bind_eq_bind, Option.bind_some,
      ih (by simp only [List.length_append, List.length_map]; omega), List.scanl_cons]
    rfl

theorem evalsSerialCachedRevInPlace_eq (r : List C) (k : Option F) :
    evalsSerialCachedRevInPlace r k = .some (evalsSerialCachedRev r k) := cachedRevRounds_eq _ rfl

/-! ## A round over zipped halves -/

theorem pairUpdate_eq (r : F) {xs ys : List F} (h : xs.length ≤ ys.length) :
    pairUpdate r xs ys =
      (xs.map fun x => x - x * r, (xs.map fun x => x * r) ++ ys.drop xs.length) := by
  induction xs generalizing ys with
  | nil => cases ys <;> rfl
  | cons x xs ih =>
    rcases ys with _ | ⟨y, ys⟩
    · cases h
    · rw [pairUpdate, ih (Nat.le_of_succ_le_succ h)]
      rfl

theorem parallelRounds_eq {rs : List F} {size : Nat} {evals : List F}
    (h : evals.length = size * 2 ^ rs.length) :
    parallelRounds rs size evals = .some (rs.foldl expandHigh (evals.take size)) := by
  induction rs generalizing size evals with
  | nil =>
    rw [List.length_nil, Nat.pow_zero, Nat.mul_one] at h
    rw [parallelRounds, List.foldl_nil, List.take_of_length_le h.le]
  | cons r rs ih =>
    rw [List.length_cons, room_succ] at h
    have hle : 2 * size ≤ evals.length := (le_room _ _).trans h.ge
    have htake : (evals.take size).length = size := List.length_take_of_le (by omega)
    have hright : ((evals.drop size).take size).length = size :=
      List.length_take_of_le (by rw [List.length_drop]; omega)
    have hguard : (guard (size ≤ evals.length ∧ size ≤ (evals.drop size).length) : Option Unit) = .some () :=
      (Option.guard_eq_some' ()).mpr ⟨by omega, by rw [List.length_drop]; omega⟩
    have hupdate := pairUpdate_eq r (htake.trans_le hright.ge)
    rw [htake, List.drop_of_length_le hright.le, List.append_nil] at hupdate
    have hhigh : (expandHigh (evals.take size) r).length = 2 * size := by
      rw [expandHigh, List.length_append, List.length_map, List.length_map, htake, Nat.two_mul]
    have hdrop : ((evals.drop size).drop size).length = 2 * size * 2 ^ rs.length - 2 * size := by
      rw [List.length_drop, List.length_drop, h]
      omega
    rw [parallelRounds, hguard, Option.bind_eq_bind, Option.bind_some, hupdate]
    change parallelRounds rs (2 * size) (expandHigh (evals.take size) r ++ (evals.drop size).drop size) = _
    rw [ih, List.take_append_of_le_length hhigh.ge, List.take_of_length_le hhigh.le, List.foldl_cons]
    rw [List.length_append, hhigh, hdrop]
    omega

theorem evalsParallelInPlace_eq (r : List C) (k : Option F) :
    evalsParallelInPlace r k = .some (evalsParallel r k) := by
  obtain ⟨n, hn⟩ := Nat.exists_eq_succ_of_ne_zero (Nat.two_pow_pos r.length).ne'
  rw [evalsParallelInPlace, hn, List.replicate_succ, assign_eq _ (Nat.succ_pos _), List.set_cons_zero,
    Option.bind_eq_bind, Option.bind_some, parallelRounds_eq]
  · rfl
  · rw [List.length_cons, List.length_replicate, List.length_reverse, List.length_map, Nat.one_mul, hn]

end EqPolynomial

/-! ## Updates -/

namespace ExpandingTable

open EqPolynomial

/-- How a coordinate enters the table. -/
def expand : BindingOrder → List F → F → List F
  | .lowToHigh => expandHigh
  | .highToLow => expandLow

/-- The vectors have the capacity. -/
structure HasCapacity (t : ExpandingTable F) (capacity : Nat) : Prop where
  values : t.values.length = capacity
  scratchSpace : t.bindingOrder = .highToLow → t.scratchSpace.length = capacity

theorem chunkUpdate_eq (parallel : Bool) (r : F) {vs scratch : List F} (h : 2 * vs.length ≤ scratch.length) :
    chunkUpdate parallel r vs scratch = .some (expandLow vs r ++ scratch.drop (2 * vs.length)) := by
  induction vs generalizing scratch with
  | nil => cases scratch <;> rfl
  | cons v vs ih =>
    rw [List.length_cons] at h
    match scratch, h with
    | d1 :: d2 :: scratch, h =>
      rw [List.length_cons, List.length_cons] at h
      rw [chunkUpdate, ih (by omega), List.length_cons, Nat.mul_add_one, mul_comm r v]
      rfl

/-- An update that has room doubles the table. -/
theorem update_eq {t : ExpandingTable F} {capacity : Nat} (hcapacity : t.HasCapacity capacity)
    (h : 2 * t.len ≤ capacity) (r : F) :
    ∃ t', t.update r = .some t' ∧ t'.HasCapacity capacity ∧ t'.bindingOrder = t.bindingOrder ∧
      t'.len = 2 * t.len ∧ t'.cloneValues = expand t.bindingOrder t.cloneValues r := by
  obtain ⟨order, len, values, scratch⟩ := t
  obtain ⟨hvalues, hscratch⟩ := hcapacity
  simp only at hvalues hscratch h
  have hguard : (guard (len ≤ values.length) : Option Unit) = .some () :=
    (Option.guard_eq_some' ()).mpr (by omega)
  have htake : (values.take len).length = len := List.length_take_of_le (by omega)
  cases order with
  | lowToHigh =>
    have hupdate := @pairUpdate_eq F _ r (values.take len) (values.drop len)
      (by rw [htake, List.length_drop]; omega)
    rw [htake] at hupdate
    have hhigh : (expandHigh (values.take len) r).length = 2 * len := by
      rw [expandHigh, List.length_append, List.length_map, List.length_map, htake, Nat.two_mul]
    refine ⟨⟨.lowToHigh, 2 * len, expandHigh (values.take len) r ++ (values.drop len).drop len, scratch⟩, ?_,
      ⟨?_, fun h => by cases h⟩, rfl, rfl, ?_⟩
    · simp only [update, hguard, Option.bind_eq_bind, Option.bind_some, hupdate, expandHigh, List.append_assoc]
    · simp only [List.length_append, hhigh, List.length_drop]
      omega
    · simp only [cloneValues, expand]
      rw [List.take_append_of_le_length hhigh.ge, List.take_of_length_le hhigh.le]
  | highToLow =>
    have hlength := hscratch rfl
    have hupdate := @chunkUpdate_eq F _ (4096 ≤ len) r (values.take len) scratch
      (by rw [htake]; omega)
    rw [htake] at hupdate
    have hlow : (expandLow (values.take len) r).length = 2 * len := by
      rw [length_expandLow, htake, Nat.mul_comm]
    refine ⟨⟨.highToLow, 2 * len, expandLow (values.take len) r ++ scratch.drop (2 * len), values⟩, ?_,
      ⟨?_, fun _ => hvalues⟩, rfl, rfl, ?_⟩
    · simp only [update, hguard, Option.bind_eq_bind, Option.bind_some, hupdate]
    · simp only [List.length_append, hlow, List.length_drop]
      omega
    · simp only [cloneValues, expand]
      rw [List.take_append_of_le_length hlow.ge, List.take_of_length_le hlow.le]

theorem foldlM_update {rs : List F} {t : ExpandingTable F} {capacity : Nat}
    (hcapacity : t.HasCapacity capacity) (h : t.len * 2 ^ rs.length ≤ capacity) :
    ∃ t', rs.foldlM update t = .some t' ∧ t'.cloneValues = rs.foldl (expand t.bindingOrder) t.cloneValues := by
  induction rs generalizing t with
  | nil => exact ⟨t, rfl, rfl⟩
  | cons r rs ih =>
    rw [List.length_cons, EqPolynomial.room_succ] at h
    have hroom : 2 * t.len ≤ capacity := (EqPolynomial.le_room _ _).trans h
    obtain ⟨t1, hstep, hcapacity1, horder, hlen, hvalues⟩ := update_eq hcapacity hroom r
    obtain ⟨t', hrest, hresult⟩ := ih hcapacity1 (by rwa [hlen])
    refine ⟨t', ?_, ?_⟩
    · rw [List.foldlM_cons, hstep]
      exact hrest
    · rw [hresult, horder, hvalues]
      rfl

theorem fill_eq {capacity : Nat} (order : BindingOrder) (value : F) {r : List C}
    (h : 2 ^ r.length ≤ capacity) : ∃ t, fill capacity order value r = .some t ∧
      t.cloneValues = (r.map Challenge.into).foldl (expand order) [value] := by
  obtain ⟨c, rfl⟩ : ∃ c, capacity = c + 1 := ⟨capacity - 1, by have := Nat.two_pow_pos r.length; omega⟩
  have hreset : reset (new (c + 1) order) value = .some
      { new (c + 1) order with values := value :: List.replicate c 0, len := 1 } := rfl
  obtain ⟨t, hrun, hvalues⟩ := @foldlM_update F _ (r.map Challenge.into)
    { new (c + 1) order with values := value :: List.replicate c 0, len := 1 } (c + 1)
    ⟨by simp, fun h => by
      have horder : order = .highToLow := h
      rw [horder]
      exact List.length_replicate⟩ (by simpa using h)
  refine ⟨t, ?_, hvalues⟩
  rw [fill, hreset]
  exact hrun

end ExpandingTable

/-! ## All of them -/

/-- The values over the cube, the last coordinate varying fastest, times a factor. -/
def cubeTable (k : F) (w : List F) : List F := (cube w.length).map fun x => k * eqMle w x

theorem cubeTable_eq (k : F) (w : List F) : cubeTable k w = (eqTable w).map (k * ·) := by
  rw [eqTable_eq, List.map_map]
  rfl

open EqPolynomial

/-- The coordinate that a table in binding order has fastest. -/
def BindingOrder.arrange {α : Type} : BindingOrder → List α → List α
  | .lowToHigh, r => r.reverse
  | .highToLow, r => r

/-- **All builders make the same table**, and their layers those of the prefixes or the
suffixes of the point. -/
theorem EqPolynomial.builders_agree (r : List C) (scalingFactor : Option F) :
    evalsSerialInPlace r scalingFactor = .some (cubeTable (scalingFactor.getD 1) (r.map Challenge.into)) ∧
    evalsParallelInPlace r scalingFactor = .some (cubeTable (scalingFactor.getD 1) (r.map Challenge.into)) ∧
    evalsWithScaling r scalingFactor = cubeTable (scalingFactor.getD 1) (r.map Challenge.into) ∧
    (∃ layers, evalsSerialCachedInPlace r scalingFactor = .some layers ∧ layers.length = r.length + 1 ∧
      ∀ j ≤ r.length, layers[j]? =
        .some (cubeTable (scalingFactor.getD 1) ((r.map Challenge.into).take j))) ∧
    (∃ layers, evalsSerialCachedRevInPlace r scalingFactor = .some layers ∧ layers.length = r.length + 1 ∧
      ∀ j ≤ r.length, layers[j]? =
        .some (cubeTable (scalingFactor.getD 1) ((r.map Challenge.into).drop (r.length - j)))) ∧
    (∀ b ≤ r.length, ∀ q < 2 ^ (r.length - b), evalsForAlignedBlock r (q * 2 ^ b) (2 ^ b) =
      .some (((cubeTable (1 : F) (r.map Challenge.into)).drop (q * 2 ^ b)).take (2 ^ b))) ∧
    ∀ order capacity, 2 ^ r.length ≤ capacity → ∀ j ≤ r.length, ∃ t,
      ExpandingTable.fill capacity order (scalingFactor.getD 1) (r.take j) = .some t ∧
        t.cloneValues = cubeTable (scalingFactor.getD 1) (order.arrange ((r.map Challenge.into).take j)) := by
  generalize hk : scalingFactor.getD 1 = k
  have hlow (w : List F) : w.foldl expandLow [k] = cubeTable k w := by
    rw [foldl_expandLow, cubeTable_eq]
    simp
  have hhigh (w : List F) : w.reverse.foldl expandHigh [k] = cubeTable k w := by
    rw [foldl_expandHigh, cubeTable_eq, tensor_singleton_right]
  have hserial : evalsSerial r scalingFactor = cubeTable k (r.map Challenge.into) := by
    rw [evalsSerial, hk, hlow]
  have hparallel : evalsParallel r scalingFactor = cubeTable k (r.map Challenge.into) := by
    rw [evalsParallel, hk, hhigh]
  refine ⟨?_, ?_, ?_, ⟨_, evalsSerialCachedInPlace_eq r _, ?_, fun j hj => ?_⟩,
    ⟨_, evalsSerialCachedRevInPlace_eq r _, ?_, fun j hj => ?_⟩, fun b hb q hq => ?_,
    fun order capacity hcapacity j hj => ?_⟩
  · rw [evalsSerialInPlace_eq, hserial]
  · rw [evalsParallelInPlace_eq, hparallel]
  · rw [evalsWithScaling, hserial, hparallel, ite_self]
  · rw [evalsSerialCached, List.length_scanl, List.length_map]
  · rw [evalsSerialCached, List.getElem?_scanl, if_pos (by rwa [List.length_map]), hk, hlow]
  · rw [evalsSerialCachedRev, List.length_scanl, List.length_reverse, List.length_map]
  · rw [evalsSerialCachedRev, List.getElem?_scanl, if_pos (by rwa [List.length_reverse, List.length_map]), hk,
      List.take_reverse, List.length_map, hhigh]
  · rw [evalsForAlignedBlock_eq hb hq, cubeTable_eq]
    refine congrArg _ (List.ext_getElem? fun i => ?_)
    rw [List.getElem?_map, List.getElem?_take]
    split_ifs with hi
    · have hblock : q * 2 ^ b + i < (eqTable (r.map (Challenge.into : C → F))).length := by
        rw [length_eqTable, List.length_map, ← Nat.sub_add_cancel hb, Nat.pow_add]
        exact split_lt hq hi
      rw [List.getElem?_range hi, List.getElem?_drop, List.getElem?_map, List.getElem?_eq_getElem hblock,
        Option.map_some, Option.map_some, one_mul, eqAt, List.getD_eq_getElem _ _ hblock]
    · rw [List.getElem?_eq_none (by rw [List.length_range]; omega)]
      rfl
  · have hlength : (r.take j).length = j := List.length_take_of_le hj
    obtain ⟨t, hfill, hvalues⟩ := @ExpandingTable.fill_eq F C _ _ capacity order k (r.take j)
      ((Nat.pow_le_pow_right (by decide) (hlength.trans_le hj)).trans hcapacity)
    refine ⟨t, hfill, ?_⟩
    rw [hvalues, List.map_take]
    cases order with
    | lowToHigh =>
      have hreverse := hhigh ((r.map (Challenge.into : C → F)).take j).reverse
      rwa [List.reverse_reverse] at hreverse
    | highToLow => exact hlow _

end LightningJolt
