/-
The split equality polynomial keeps its factorisation: after any sequence of
challenges the tables on the two stacks, the coordinate to be bound next and the
scalar multiply to the equality polynomial with these challenges bound.
-/
import LightningJolt.SplitEq

namespace LightningJolt

/-! ## Stacks of tables -/

section Stacks

variable {α : Type}

/-- The tables of `0` to `len` coordinates. -/
def tableStack (f : Nat → α) (len : Nat) : List α := (List.range (len + 1)).map f

@[simp] theorem length_tableStack (f : Nat → α) (len : Nat) :
    (tableStack f len).length = len + 1 := by simp [tableStack]

theorem dropLast_tableStack (f : Nat → α) (len : Nat) :
    (tableStack f (len + 1)).dropLast = tableStack f len := by
  rw [tableStack, List.range_succ, List.map_append, List.map_singleton, List.dropLast_concat]
  rfl

theorem getLast?_tableStack (f : Nat → α) (len : Nat) :
    (tableStack f len).getLast? = .some (f len) := by
  rw [tableStack, List.range_succ, List.map_append, List.map_singleton, List.getLast?_concat]

theorem getElem?_tableStack (f : Nat → α) {len k : Nat} (h : k ≤ len) :
    (tableStack f len)[k]? = .some (f k) := by
  simp [tableStack, show k < len + 1 by omega]

theorem tableStack_ne_nil (f : Nat → α) (len : Nat) : tableStack f len ≠ [] := by
  intro h
  have hlen := length_tableStack f len
  rw [h] at hlen
  simp at hlen

/-- Equal tables make equal stacks. -/
theorem tableStack_congr {f g : Nat → α} {len : Nat} (h : ∀ k ≤ len, f k = g k) :
    tableStack f len = tableStack g len :=
  List.map_congr_left fun k hk => h k (by rw [List.mem_range] at hk; omega)

end Stacks

variable {F C : Type} [JoltField F] [Challenge C F]

theorem scanl_expandLow (w : List F) :
    w.scanl EqPolynomial.expandLow [1] = tableStack (fun k => eqTable (w.take k)) w.length := by
  refine List.ext_getElem (by simp) fun k h1 h2 => ?_
  rw [List.getElem_scanl, EqPolynomial.foldl_expandLow, tensor_one_left]
  simp [tableStack]

theorem scanl_expandHigh (w : List F) :
    w.reverse.scanl EqPolynomial.expandHigh [1] =
      tableStack (fun k => eqTable (w.drop (w.length - k))) w.length := by
  refine List.ext_getElem (by simp) fun k h1 h2 => ?_
  rw [List.getElem_scanl, List.take_reverse, EqPolynomial.foldl_expandHigh, tensor_one_right]
  simp [tableStack]

theorem DensePolynomial.new_eqTable (w : List F) (k : F) :
    DensePolynomial.new ((eqTable w).map (k * ·)) = .some ((eqTable w).map (k * ·)) := by
  rw [DensePolynomial.new, List.length_map, length_eqTable, Nat.log2_two_pow, if_pos rfl]

/-! ## The polynomial with its first challenges bound -/

/-- The coordinates of a point. -/
def coordinates (F : Type) [JoltField F] [Challenge C F] (w : List C) : List F := w.map Challenge.into

@[simp] theorem length_coordinates (w : List C) : (coordinates F w).length = w.length :=
  List.length_map _

/-- The point whose last, or first, coordinates are the challenges. -/
def BindingOrder.place (order : BindingOrder) (rs x : List F) : List F :=
  match order with
  | .lowToHigh => x ++ rs.reverse
  | .highToLow => rs ++ x

/-- The table of `scale * eq(w, ·)` with the challenges bound. -/
def boundTable (order : BindingOrder) (scale : F) (w rs : List F) : List F :=
  (cube (w.length - rs.length)).map fun x => scale * eqMle w (order.place rs x)

theorem eqMle_cons (w x : F) (ws xs : List F) :
    eqMle (w :: ws) (x :: xs) = eqFactor w x * eqMle ws xs := by
  rw [eqMle, List.zipWith_cons_cons, List.prod_cons]
  rfl

theorem boundTable_lowToHigh {scale : F} {w rs : List F} (h : rs.length ≤ w.length) :
    boundTable .lowToHigh scale w rs = (eqTable (w.take (w.length - rs.length))).map
      (scale * eqMle (w.drop (w.length - rs.length)) rs.reverse * ·) := by
  have hlen : w.length - rs.length = (w.take (w.length - rs.length)).length := by
    rw [List.length_take]
    omega
  have hsplit := map_eqMle_append (w.take (w.length - rs.length)) (w.drop (w.length - rs.length))
    rs.reverse
  rw [List.take_append_drop, ← hlen] at hsplit
  have hscaled := congrArg (List.map (scale * ·)) hsplit
  rw [List.map_map, List.map_map] at hscaled
  exact hscaled.trans (List.map_congr_left fun x _ => (mul_assoc _ _ x).symm)

theorem boundTable_highToLow {scale : F} {w rs : List F} (h : rs.length ≤ w.length) :
    boundTable .highToLow scale w rs = (eqTable (w.drop rs.length)).map
      (scale * eqMle (w.take rs.length) rs * ·) := by
  have hlen : (w.take rs.length).length = rs.length := by
    rw [List.length_take]
    omega
  have hsplit := map_eqMle_prepend (w.drop rs.length) hlen
  rw [List.take_append_drop, List.length_drop] at hsplit
  have hscaled := congrArg (List.map (scale * ·)) hsplit
  rw [List.map_map, List.map_map] at hscaled
  exact hscaled.trans (List.map_congr_left fun x _ => (mul_assoc _ _ x).symm)

/-! ## What the rounds keep -/

namespace GruenSplitEqPolynomial

/-- The table of the first `k` coordinates of the inner part, from low to high. -/
def lowIn (w : List F) (k : Nat) : List F := eqTable ((w.drop (w.length / 2)).take k)

/-- The table of the first `k` coordinates of the outer part, from low to high. -/
def lowOut (w : List F) (k : Nat) : List F := eqTable (w.take k)

/-- The table of the last `k` coordinates of the inner part, from high to low. -/
def highIn (w : List F) (k : Nat) : List F :=
  eqTable ((w.take (w.length / 2 + 1)).drop (w.length / 2 + 1 - k))

/-- The table of the last `k` coordinates of the outer part, from high to low. -/
def highOut (w : List F) (k : Nat) : List F := eqTable (w.drop (w.length - k))

/-- The state after the challenges `rs`, from low to high. -/
structure LowAt (scale : F) (w rs : List C) (s : GruenSplitEqPolynomial F C) : Prop where
  bindingOrder : s.bindingOrder = .lowToHigh
  point : s.w = w
  currentIndex : s.currentIndex = w.length - rs.length
  currentScalar : s.currentScalar = scale *
    eqMle ((coordinates F w).drop (w.length - rs.length)) (coordinates F rs).reverse
  eInVec : s.eInVec = tableStack (lowIn (coordinates F w)) (w.length - rs.length - 1 - w.length / 2)
  eOutVec : s.eOutVec = tableStack (lowOut (coordinates F w))
    (min (w.length / 2) (w.length - rs.length - 1))

/-- The state after the challenges `rs`, from high to low. -/
structure HighAt (scale : F) (w rs : List C) (s : GruenSplitEqPolynomial F C) : Prop where
  bindingOrder : s.bindingOrder = .highToLow
  point : s.w = w
  currentIndex : s.currentIndex = rs.length
  currentScalar : s.currentScalar = scale *
    eqMle ((coordinates F w).take rs.length) (coordinates F rs)
  eInVec : s.eInVec = tableStack (highIn (coordinates F w)) (w.length / 2 - rs.length)
  eOutVec : s.eOutVec = tableStack (highOut (coordinates F w))
    (w.length - 1 - max rs.length (w.length / 2))

omit [JoltField F] [Challenge C F] in
/-- A pop takes a table from the stack that has one to spare. -/
theorem popTables_stacks (f g : Nat → List F) {a b : Nat} (a' b' : Nat) {popIn popOut : Bool}
    (h : (popIn ∧ a = a' + 1 ∧ b = b') ∨
      ((popIn = false ∨ a = 0) ∧ a = a' ∧ ((popOut ∧ b = b' + 1) ∨ (b = 0 ∧ b' = 0))))
    (index : Nat) (scalar : F) (w : List C) (order : BindingOrder) :
    popTables ⟨index, scalar, w, tableStack f a, tableStack g b, order⟩ popIn popOut =
      ⟨index, scalar, w, tableStack f a', tableStack g b', order⟩ := by
  unfold popTables
  simp only [length_tableStack]
  rcases h with ⟨hin, rfl, rfl⟩ | ⟨hnot, rfl, hout⟩
  · rw [if_pos ⟨hin, by omega⟩, dropLast_tableStack]
  · rw [if_neg (by rcases hnot with h | h <;> simp [h])]
    rcases hout with ⟨hpop, rfl⟩ | ⟨rfl, rfl⟩
    · rw [if_pos ⟨hpop, by omega⟩, dropLast_tableStack]
    · rw [if_neg (by simp)]

theorem eqFactor_expanded (w r : F) : 1 - w - r + w * r + w * r = eqFactor w r := by
  unfold eqFactor
  ring

theorem LowAt.getCurrentW {scale : F} {w rs : List C} {s : GruenSplitEqPolynomial F C}
    (h : LowAt scale w rs s) (hlt : rs.length < w.length) :
    s.getCurrentW = .some (w.get ⟨w.length - rs.length - 1, by omega⟩) := by
  have hne : w.length - rs.length ≠ 0 := by omega
  rw [GruenSplitEqPolynomial.getCurrentW, h.bindingOrder]
  simp only [h.currentIndex, h.point, if_neg hne]
  exact List.getElem?_eq_getElem (by omega)

theorem HighAt.getCurrentW {scale : F} {w rs : List C} {s : GruenSplitEqPolynomial F C}
    (h : HighAt scale w rs s) (hlt : rs.length < w.length) :
    s.getCurrentW = .some (w.get ⟨rs.length, hlt⟩) := by
  rw [GruenSplitEqPolynomial.getCurrentW, h.bindingOrder]
  simp only [h.currentIndex, h.point]
  exact List.getElem?_eq_getElem hlt

theorem bind_lowToHigh {s : GruenSplitEqPolynomial F C} (horder : s.bindingOrder = .lowToHigh)
    {c : C} (hcurrent : s.getCurrentW = .some c) (r : C) :
    s.bind r = .some (popTables
      ⟨s.currentIndex - 1, s.currentScalar * eqFactor (Challenge.into c) (Challenge.into r), s.w,
        s.eInVec, s.eOutVec, s.bindingOrder⟩
      (decide (s.w.length / 2 < s.currentIndex - 1)) (decide (0 < s.currentIndex - 1))) := by
  unfold bind
  rw [hcurrent, ← eqFactor_expanded]
  simp only [Option.bind_eq_bind, Option.bind_some, horder]

theorem bind_highToLow {s : GruenSplitEqPolynomial F C} (horder : s.bindingOrder = .highToLow)
    {c : C} (hcurrent : s.getCurrentW = .some c) (r : C) :
    s.bind r = .some (popTables
      ⟨s.currentIndex + 1, s.currentScalar * eqFactor (Challenge.into c) (Challenge.into r), s.w,
        s.eInVec, s.eOutVec, s.bindingOrder⟩
      (decide (s.currentIndex + 1 ≤ s.w.length / 2)) (decide (s.currentIndex + 1 ≤ s.w.length))) := by
  unfold bind
  rw [hcurrent, ← eqFactor_expanded]
  simp only [Option.bind_eq_bind, Option.bind_some, horder]

theorem drop_coordinates {w : List C} {k : Nat} (h : k < w.length) :
    (coordinates F w).drop k = Challenge.into (w.get ⟨k, h⟩) :: (coordinates F w).drop (k + 1) := by
  rw [List.drop_eq_getElem_cons (by simpa using h)]
  simp [coordinates]

theorem take_coordinates {w : List C} {k : Nat} (h : k < w.length) :
    (coordinates F w).take (k + 1) = (coordinates F w).take k ++ [Challenge.into (w.get ⟨k, h⟩)] := by
  rw [List.take_succ_eq_append_getElem (by simpa using h)]
  simp [coordinates]

theorem coordinates_concat (rs : List C) (r : C) :
    coordinates F (rs ++ [r]) = coordinates F rs ++ [Challenge.into r] := by simp [coordinates]

/-- **A round from low to high.** -/
theorem LowAt.bind {scale : F} {w rs : List C} {s : GruenSplitEqPolynomial F C}
    (h : LowAt scale w rs s) (hlt : rs.length < w.length) (r : C) :
    ∃ s', s.bind r = .some s' ∧ LowAt scale w (rs ++ [r]) s' := by
  obtain ⟨k, hk⟩ : ∃ k, w.length - rs.length = k + 1 := ⟨w.length - rs.length - 1, by omega⟩
  have hrest : w.length - (rs ++ [r]).length = k := by
    rw [List.length_append, List.length_singleton]
    omega
  have hkw : k < w.length := by omega
  have hcurrent : s.getCurrentW = .some (w.get ⟨k, hkw⟩) := by
    rw [h.getCurrentW hlt]
    simp [hk]
  rw [bind_lowToHigh h.bindingOrder hcurrent, h.currentIndex, h.point, hk, Nat.add_sub_cancel]
  refine ⟨_, rfl, ?_⟩
  rw [h.eInVec, h.eOutVec, popTables_stacks _ _ (k - 1 - w.length / 2)
    (min (w.length / 2) (k - 1)) (by
      rw [hk]
      by_cases hin : w.length / 2 < k
      · exact .inl ⟨by simpa using hin, by omega, by omega⟩
      · refine .inr ⟨.inr (by omega), by omega, ?_⟩
        by_cases hzero : 0 < k
        · exact .inl ⟨by simpa using hzero, by omega⟩
        · exact .inr ⟨by omega, by omega⟩)]
  refine ⟨h.bindingOrder, rfl, hrest.symm, ?_, by rw [hrest], by rw [hrest]⟩
  rw [hrest, drop_coordinates hkw, coordinates_concat, List.reverse_concat, eqMle_cons,
    h.currentScalar, hk]
  ring

/-- **A round from high to low.** -/
theorem HighAt.bind {scale : F} {w rs : List C} {s : GruenSplitEqPolynomial F C}
    (h : HighAt scale w rs s) (hlt : rs.length < w.length) (r : C) :
    ∃ s', s.bind r = .some s' ∧ HighAt scale w (rs ++ [r]) s' := by
  have hlen : (rs ++ [r]).length = rs.length + 1 := by
    rw [List.length_append, List.length_singleton]
  rw [bind_highToLow h.bindingOrder (h.getCurrentW hlt), h.currentIndex, h.point]
  refine ⟨_, rfl, ?_⟩
  rw [h.eInVec, h.eOutVec, popTables_stacks _ _ (w.length / 2 - (rs.length + 1))
    (w.length - 1 - max (rs.length + 1) (w.length / 2)) (by
      by_cases hin : rs.length + 1 ≤ w.length / 2
      · exact .inl ⟨by simpa using hin, by omega, by omega⟩
      · refine .inr ⟨.inr (by omega), by omega, ?_⟩
        by_cases hlast : rs.length + 1 = w.length
        · exact .inr ⟨by omega, by omega⟩
        · exact .inl ⟨by simpa using hlt, by omega⟩)]
  refine ⟨h.bindingOrder, rfl, hlen.symm, ?_, by rw [hlen], by rw [hlen]⟩
  have hsame : ((coordinates F w).take rs.length).length = (coordinates F rs).length := by
    simp
    omega
  rw [hlen, take_coordinates hlt, coordinates_concat, eqMle_append hsame, h.currentScalar,
    eqMle_cons]
  simp [eqMle]
  ring

/-! ## The first state -/

theorem cached_lowIn (w : List C) :
    (EqPolynomial.evalsSerialCached (w.dropLast.drop (w.length / 2)) .none : List (List F)) =
      tableStack (lowIn (coordinates F w)) (w.length - 1 - w.length / 2) := by
  have hlen : ((w.dropLast.drop (w.length / 2)).map Challenge.into : List F).length =
      w.length - 1 - w.length / 2 := by simp
  rw [EqPolynomial.evalsSerialCached, Option.getD_none, scanl_expandLow, hlen]
  refine tableStack_congr fun k hk => ?_
  rw [lowIn, length_coordinates, List.dropLast_eq_take, List.drop_take, List.map_take,
    List.take_take, min_eq_left hk, List.map_drop]
  rfl

theorem cached_lowOut (w : List C) :
    (EqPolynomial.evalsSerialCached (w.dropLast.take (w.length / 2)) .none : List (List F)) =
      tableStack (lowOut (coordinates F w)) (min (w.length / 2) (w.length - 1)) := by
  have hlen : ((w.dropLast.take (w.length / 2)).map Challenge.into : List F).length =
      min (w.length / 2) (w.length - 1) := by simp
  rw [EqPolynomial.evalsSerialCached, Option.getD_none, scanl_expandLow, hlen]
  refine tableStack_congr fun k hk => ?_
  rw [lowOut, List.dropLast_eq_take, List.take_take, List.map_take, List.take_take, min_eq_left hk]
  rfl

theorem cachedRev_highIn {w : List C} (hw : w ≠ []) :
    (EqPolynomial.evalsSerialCachedRev (w.tail.take (w.length / 2)) .none : List (List F)) =
      tableStack (highIn (coordinates F w)) (w.length / 2) := by
  have hpos := List.length_pos_iff.mpr hw
  have hlen : ((w.tail.take (w.length / 2)).map Challenge.into : List F).length = w.length / 2 := by
    simp
    omega
  rw [EqPolynomial.evalsSerialCachedRev, Option.getD_none, scanl_expandHigh, hlen]
  refine tableStack_congr fun k hk => ?_
  rw [highIn, length_coordinates, ← List.drop_one, List.take_drop, List.map_drop, List.drop_drop,
    Nat.add_comm 1 (w.length / 2 - k), ← Nat.sub_add_comm hk, Nat.add_comm 1, List.map_take]
  rfl

theorem cachedRev_highOut {w : List C} (hw : w ≠ []) :
    (EqPolynomial.evalsSerialCachedRev (w.tail.drop (w.length / 2)) .none : List (List F)) =
      tableStack (highOut (coordinates F w)) (w.length - 1 - w.length / 2) := by
  have hpos := List.length_pos_iff.mpr hw
  have hlen : ((w.tail.drop (w.length / 2)).map Challenge.into : List F).length =
      w.length - 1 - w.length / 2 := by
    simp
    omega
  rw [EqPolynomial.evalsSerialCachedRev, Option.getD_none, scanl_expandHigh, hlen]
  refine tableStack_congr fun k hk => ?_
  rw [highOut, length_coordinates, ← List.drop_one, List.drop_drop, List.map_drop, List.drop_drop]
  congr 2
  omega

theorem LowAt.new {w : List C} (hw : w ≠ []) (k : Option F) :
    ∃ s, newWithScaling w .lowToHigh k = .some s ∧ LowAt (k.getD 1) w [] s := by
  unfold newWithScaling
  rw [if_neg hw]
  refine ⟨_, rfl, rfl, rfl, rfl, ?_, cached_lowIn w, cached_lowOut w⟩
  simp [eqMle, coordinates]

theorem HighAt.new {w : List C} (hw : w ≠ []) (k : Option F) :
    ∃ s, newWithScaling w .highToLow k = .some s ∧ HighAt (k.getD 1) w [] s := by
  have hout : w.length - 1 - max ([] : List C).length (w.length / 2) = w.length - 1 - w.length / 2 := by
    simp
  unfold newWithScaling
  rw [if_neg hw]
  refine ⟨_, rfl, rfl, rfl, rfl, ?_, cachedRev_highIn hw, ?_⟩
  · simp [eqMle, coordinates]
  · rw [hout]
    exact cachedRev_highOut hw

/-! ## Runs -/

/-- What one bind extends by its challenge, a run of binds extends by all of them. -/
theorem bindAll_of_bind {P : List C → GruenSplitEqPolynomial F C → Prop} {n : Nat}
    (hstep : ∀ {rs : List C} {s : GruenSplitEqPolynomial F C}, P rs s → rs.length < n → ∀ q : C,
      ∃ s', s.bind q = .some s' ∧ P (rs ++ [q]) s')
    {rs qs : List C} {s : GruenSplitEqPolynomial F C} (h : P rs s) (hlen : (rs ++ qs).length ≤ n) :
    ∃ s', s.bindAll qs = .some s' ∧ P (rs ++ qs) s' := by
  induction qs generalizing rs s with
  | nil => exact ⟨s, rfl, by rwa [List.append_nil]⟩
  | cons q qs ih =>
    have hlt : rs.length < n := by
      rw [List.length_append, List.length_cons] at hlen
      omega
    obtain ⟨s1, hs1, h1⟩ := hstep h hlt q
    obtain ⟨s', hs', h'⟩ := ih h1 (by rwa [List.append_assoc])
    refine ⟨s', ?_, by rwa [List.append_assoc] at h'⟩
    rw [GruenSplitEqPolynomial.bindAll, List.foldlM_cons, hs1]
    exact hs'

theorem LowAt.bindAll {scale : F} {w rs qs : List C} {s : GruenSplitEqPolynomial F C}
    (h : LowAt scale w rs s) (hlen : (rs ++ qs).length ≤ w.length) :
    ∃ s', s.bindAll qs = .some s' ∧ LowAt scale w (rs ++ qs) s' :=
  bindAll_of_bind (fun h hlt q => h.bind hlt q) h hlen

theorem HighAt.bindAll {scale : F} {w rs qs : List C} {s : GruenSplitEqPolynomial F C}
    (h : HighAt scale w rs s) (hlen : (rs ++ qs).length ≤ w.length) :
    ∃ s', s.bindAll qs = .some s' ∧ HighAt scale w (rs ++ qs) s' :=
  bindAll_of_bind (fun h hlt q => h.bind hlt q) h hlen

/-! ## The factorisation -/

/-- The tables of a split of the point, with the pair of the coordinate to be
bound next where the order puts it. -/
def product (order : BindingOrder) (eOut eIn eActive : List F) (current : F) : List F :=
  match order with
  | .lowToHigh => tensor (tensor (tensor eOut eIn) eActive) (eqPair current)
  | .highToLow => tensor (eqPair current) (tensor eActive (tensor eIn eOut))

theorem LowAt.merge {scale : F} {w rs : List C} {s : GruenSplitEqPolynomial F C}
    (h : LowAt scale w rs s) (hlen : rs.length ≤ w.length) :
    s.merge = .some (boundTable .lowToHigh scale (coordinates F w) (coordinates F rs)) := by
  have hle : w.length - rs.length ≤ w.length := by omega
  rw [boundTable_lowToHigh (by simpa using hlen), GruenSplitEqPolynomial.merge, h.bindingOrder]
  simp only [h.currentIndex, h.point, if_pos hle, EqPolynomial.evalsParallel_eq, Option.getD_some,
    DensePolynomial.new_eqTable, h.currentScalar, List.map_take, length_coordinates]
  rfl

theorem HighAt.merge {scale : F} {w rs : List C} {s : GruenSplitEqPolynomial F C}
    (h : HighAt scale w rs s) (hlen : rs.length ≤ w.length) :
    s.merge = .some (boundTable .highToLow scale (coordinates F w) (coordinates F rs)) := by
  rw [boundTable_highToLow (by simpa using hlen), GruenSplitEqPolynomial.merge, h.bindingOrder]
  simp only [h.currentIndex, h.point, if_pos hlen, EqPolynomial.evalsParallel_eq, Option.getD_some,
    DensePolynomial.new_eqTable, h.currentScalar, List.map_drop, length_coordinates]
  rfl

/-- The first coordinates of a point, split in two. -/
theorem eqTable_take (w : List F) (k : Nat) :
    eqTable (w.take k) = tensor (lowOut w (min (w.length / 2) k)) (lowIn w (k - w.length / 2)) := by
  rw [lowOut, lowIn, ← eqTable_append]
  congr 1
  rcases Nat.le_total k (w.length / 2) with h | h
  · rw [min_eq_right h, Nat.sub_eq_zero_of_le h, List.take_zero, List.append_nil]
  · rw [min_eq_left h]
    obtain ⟨d, rfl⟩ := Nat.exists_eq_add_of_le h
    rw [Nat.add_sub_cancel_left, List.take_add]

/-- The last coordinates of a point, split in two. -/
theorem eqTable_drop (w : List F) {k : Nat} (hk : k < w.length) :
    eqTable (w.drop (k + 1)) = tensor (highIn w (w.length / 2 - k))
      (highOut w (w.length - 1 - max k (w.length / 2))) := by
  rw [highIn, highOut, ← eqTable_append]
  congr 1
  have hhalf : w.length / 2 < w.length := by omega
  rcases Nat.le_total k (w.length / 2) with h | h
  · rw [max_eq_right h, show w.length / 2 + 1 - (w.length / 2 - k) = k + 1 by omega,
      show w.length - (w.length - 1 - w.length / 2) = w.length / 2 + 1 by omega, List.drop_take]
    have hsplit := List.take_append_drop (w.length / 2 + 1 - (k + 1)) (w.drop (k + 1))
    rw [List.drop_drop, show k + 1 + (w.length / 2 + 1 - (k + 1)) = w.length / 2 + 1 by omega] at hsplit
    exact hsplit.symm
  · have hnone : (w.take (w.length / 2 + 1)).drop (w.length / 2 + 1) = [] :=
      List.drop_eq_nil_of_le (List.length_take_le _ _)
    rw [max_eq_left h, show w.length / 2 + 1 - (w.length / 2 - k) = w.length / 2 + 1 by omega,
      show w.length - (w.length - 1 - k) = k + 1 by omega, hnone, List.nil_append]

/-- The tables of a window, with those of the coordinates before it and with the
coordinate to be bound, are the table. -/
theorem LowAt.window {scale : F} {w rs : List C} {s : GruenSplitEqPolynomial F C}
    (h : LowAt scale w rs s) {current : C} (hcurrent : s.getCurrentW = .some current)
    (hlt : rs.length < w.length) {windowSize : Nat} (hpos : 1 ≤ windowSize)
    (hle : windowSize ≤ w.length - rs.length) :
    ∃ eOut eIn eActive, s.eOutInForWindow windowSize = .some (eOut, eIn) ∧
      s.eActiveForWindow windowSize = .some eActive ∧
      boundTable .lowToHigh scale (coordinates F w) (coordinates F rs) =
        (product .lowToHigh eOut eIn eActive (Challenge.into current)).map (s.currentScalar * ·) := by
  obtain ⟨k, hk⟩ : ∃ k, w.length - rs.length = k + 1 := ⟨w.length - rs.length - 1, by omega⟩
  have hkw : k < w.length := by omega
  rw [h.getCurrentW hlt] at hcurrent
  have hcurrent' : w.get ⟨k, hkw⟩ = current := by
    rw [← Option.some.inj hcurrent]
    simp [hk]
  -- the coordinates that are left: before the window, its active ones, the current one
  obtain ⟨head, hhead⟩ : ∃ head, k + 1 = head + windowSize := ⟨k + 1 - windowSize, by omega⟩
  have hactive : s.eActiveForWindow windowSize = .some
      (eqTable (((coordinates F w).drop head).take (windowSize - 1))) := by
    unfold eActiveForWindow
    by_cases hone : windowSize ≤ 1
    · have hzero : windowSize - 1 = 0 := by omega
      rw [if_pos hone, hzero, List.take_zero]
      rfl
    · rw [if_neg hone, h.bindingOrder]
      simp only [h.currentIndex, h.point, EqPolynomial.evals_eq]
      rw [if_neg (by omega), hk, show k + 1 - windowSize = head by omega, List.drop_take,
        List.take_take, List.map_take, List.map_drop,
        show min (windowSize - 1) (k + 1 - head) = windowSize - 1 by omega]
      rfl
  have hwindow : s.eOutInForWindow windowSize =
      .some (lowOut (coordinates F w) (min (w.length / 2) head),
        lowIn (coordinates F w) (head - w.length / 2)) := by
    have hout : min (w.length / 2) head ≤ min (w.length / 2) k := by omega
    have hin : head - w.length / 2 ≤ k - w.length / 2 := by omega
    unfold eOutInForWindow
    rw [h.bindingOrder]
    simp only [h.currentIndex, h.point, h.eInVec, h.eOutVec, hk, Nat.add_sub_cancel,
      show min windowSize (k + 1) = windowSize by omega, show k + 1 - windowSize = head by omega]
    rw [Nat.min_comm head, getElem?_tableStack _ hout,
      show head - min (w.length / 2) head = head - w.length / 2 by omega, getElem?_tableStack _ hin]
    rfl
  refine ⟨_, _, _, hwindow, hactive, ?_⟩
  have hlen : (coordinates F w).length = w.length := length_coordinates w
  have hsplit : (coordinates F w).take (k + 1) = (coordinates F w).take head ++
      ((coordinates F w).drop head).take (windowSize - 1) ++ [Challenge.into current] := by
    rw [take_coordinates hkw, hcurrent', ← List.take_add,
      show head + (windowSize - 1) = k by omega]
  rw [boundTable_lowToHigh (by simp; omega), length_coordinates, length_coordinates, hk, hsplit,
    eqTable_append, eqTable_append, eqTable_take, hlen, eqTable_singleton, h.currentScalar, hk]
  rfl

theorem LowAt.current {scale : F} {w rs : List C} {s : GruenSplitEqPolynomial F C}
    (h : LowAt scale w rs s) {current : C} (hcurrent : s.getCurrentW = .some current)
    (hlt : rs.length < w.length) :
    ∃ eOut eIn, s.eOutCurrent = .some eOut ∧ s.eInCurrent = .some eIn ∧
      boundTable .lowToHigh scale (coordinates F w) (coordinates F rs) =
        (product .lowToHigh eOut eIn [1] (Challenge.into current)).map (s.currentScalar * ·) := by
  obtain ⟨k, hk⟩ : ∃ k, w.length - rs.length = k + 1 := ⟨w.length - rs.length - 1, by omega⟩
  have hkw : k < w.length := by omega
  rw [h.getCurrentW hlt] at hcurrent
  have hcurrent' : w.get ⟨k, hkw⟩ = current := by
    rw [← Option.some.inj hcurrent]
    simp [hk]
  rw [eOutCurrent, eInCurrent, h.eInVec, h.eOutVec, getLast?_tableStack, getLast?_tableStack]
  refine ⟨_, _, rfl, rfl, ?_⟩
  rw [boundTable_lowToHigh (by simp; omega), length_coordinates, length_coordinates, hk,
    take_coordinates hkw, hcurrent', eqTable_append, eqTable_take, eqTable_singleton,
    length_coordinates, product, tensor_one_right, h.currentScalar, hk, Nat.add_sub_cancel]

theorem HighAt.current {scale : F} {w rs : List C} {s : GruenSplitEqPolynomial F C}
    (h : HighAt scale w rs s) {current : C} (hcurrent : s.getCurrentW = .some current)
    (hlt : rs.length < w.length) :
    ∃ eOut eIn, s.eOutCurrent = .some eOut ∧ s.eInCurrent = .some eIn ∧
      boundTable .highToLow scale (coordinates F w) (coordinates F rs) =
        (product .highToLow eOut eIn [1] (Challenge.into current)).map (s.currentScalar * ·) := by
  rw [h.getCurrentW hlt] at hcurrent
  rw [eOutCurrent, eInCurrent, h.eInVec, h.eOutVec, getLast?_tableStack, getLast?_tableStack]
  refine ⟨_, _, rfl, rfl, ?_⟩
  rw [boundTable_highToLow (by simp; omega), length_coordinates, drop_coordinates hlt,
    Option.some.inj hcurrent, eqTable, eqTable_drop _ (by simpa using hlt), length_coordinates,
    product, tensor_one_left, h.currentScalar]

end GruenSplitEqPolynomial

end LightningJolt
