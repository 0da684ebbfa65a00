/-
The kernels for a product of linear factors (`jolt-core/src/subprotocols/mles_product_sum.rs`):
half-products on a small grid, extrapolated as far as the grid of the product goes, for 2 to
8, 16 and 32 factors, and the values slid one by one for any other number.
-/
import LightningJolt.Extrapolation

namespace LightningJolt

variable {F : Type} [JoltField F]

/-! ## Extrapolation

A window has the length its formula is for; the other cases are not reached. -/

def dbl (x : F) : F := x + x

def ex2 : List F → F → F
  | [f0, f1], fInf => dbl (f1 + fInf) - f0
  | _, _ => 0

def ex4 : List F → F → F
  | [f0, f1, f2, f3], fInf6 =>
    let t := dbl (fInf6 + f3 - f2 + f1)
    let t := dbl (t - f2)
    t - f0
  | _, _ => 0

/-- `ex4_2`, the next two values. -/
def ex4Two : List F → F → F × F
  | [f0, f1, f2, f3], fInf6 =>
    let f3m2 := f3 - f2
    let f4 := dbl (fInf6 + f3m2 + f1)
    let f4 := dbl (f4 - f2) - f0
    let f5 := dbl (f4 - f3m2 + fInf6)
    let f5 := dbl (f5 - f3) - f1
    (f4, f5)
  | _, _ => (0, 0)

def ex8 (fInf40320 : F) : List F → F
  | [f0, f1, f2, f3, f4, f5, f6, f7] =>
    let pos := (f1 + f7) * 8 + (f3 + f5) * 56 + fInf40320
    let neg := (f2 + f6) * 28 + f4 * 70 + f0
    pos - neg
  | _ => 0

def ex16 (fInf16Fact : F) : List F → F
  | [f0, f1, f2, f3, f4, f5, f6, f7, f8, f9, f10, f11, f12, f13, f14, f15] =>
    let pos := (f1 + f15) * 16 + (f3 + f13) * 560 + (f5 + f11) * 4368 + (f7 + f9) * 11440 + fInf16Fact
    let neg := (f2 + f14) * 120 + (f4 + f12) * 1820 + (f6 + f10) * 8008 + f8 * 12870 + f0
    pos - neg
  | _ => 0

/-! ## Half-products -/

/-- `eval_linear_prod_2_internal`, at 1, 2 and infinity. -/
def evalLinearProd2Internal (p q : F × F) : F × F × F :=
  let pInf := p.2 - p.1
  let p2 := pInf + p.2
  let qInf := q.2 - q.1
  let q2 := qInf + q.2
  (p.2 * q.2, p2 * q2, pInf * qInf)

/-- `eval_linear_prod_4_internal`, at 1 to 4 and infinity. -/
def evalLinearProd4Internal : List (F × F) → F × F × F × F × F
  | [p0, p1, p2, p3] =>
    let (a1, a2, aInf) := evalLinearProd2Internal p0 p1
    let a3 := ex2 [a1, a2] aInf
    let a4 := ex2 [a2, a3] aInf
    let (b1, b2, bInf) := evalLinearProd2Internal p2 p3
    let b3 := ex2 [b1, b2] bInf
    let b4 := ex2 [b2, b3] bInf
    (a1 * b1, a2 * b2, a3 * b3, a4 * b4, aInf * bInf)
  | _ => (0, 0, 0, 0, 0)

/-- `batch_helper` of `eval_linear_prod_8_internal`. -/
def batchHelper8 (f0 f1 f2 f3 fInf : F) : F × F × F × F :=
  let fInf6 := fInf * 6
  let (f4, f5) := ex4Two [f0, f1, f2, f3] fInf6
  let (f6, f7) := ex4Two [f2, f3, f4, f5] fInf6
  (f4, f5, f6, f7)

/-- `eval_linear_prod_8_internal`, at 1 to 8 and infinity. -/
def evalLinearProd8Internal (p : List (F × F)) : List F :=
  let (a1, a2, a3, a4, aInf) := evalLinearProd4Internal (p.take 4)
  let (a5, a6, a7, a8) := batchHelper8 a1 a2 a3 a4 aInf
  let (b1, b2, b3, b4, bInf) := evalLinearProd4Internal (p.drop 4)
  let (b5, b6, b7, b8) := batchHelper8 b1 b2 b3 b4 bInf
  [a1 * b1, a2 * b2, a3 * b3, a4 * b4, a5 * b5, a6 * b6, a7 * b7, a8 * b8, aInf * bInf]

/-- `expand8_to16`, with the value at infinity last. -/
def expand8To16 (vals : List F) : List F × F :=
  let fInf := vals.getD 8 0
  (slide (ex8 (fInf * 40320)) 8 8 (vals.take 8), fInf)

/-- `eval_half_16_base`. -/
def evalHalf16Base (p : List (F × F)) : List F × F :=
  let (a16Vals, aInf) := expand8To16 (evalLinearProd8Internal (p.take 8))
  let (b16Vals, bInf) := expand8To16 (evalLinearProd8Internal (p.drop 8))
  (List.zipWith (· * ·) a16Vals b16Vals, aInf * bInf)

/-- `expand16_to_u32`. -/
def expand16ToU32 (base16 : List F) (inf : F) : List F :=
  slide (ex16 (inf * 20922789888000)) 16 15 base16 ++ [inf]

/-! ## The kernels -/

def evalProd2Assign : List (F × F) → List F
  | [p, q] => [p.2 * q.2, (p.2 - p.1) * (q.2 - q.1)]
  | _ => []

def evalProd3Assign : List (F × F) → List F
  | [p, q, b] =>
    let (a1, a2, aInf) := evalLinearProd2Internal p q
    let bInf := b.2 - b.1
    let b2 := b.2 + bInf
    [a1 * b.2, a2 * b2, aInf * bInf]
  | _ => []

def evalProd4Assign : List (F × F) → List F
  | [p0, p1, p2, p3] =>
    let (a1, a2, aInf) := evalLinearProd2Internal p0 p1
    let a3 := ex2 [a1, a2] aInf
    let (b1, b2, bInf) := evalLinearProd2Internal p2 p3
    let b3 := ex2 [b1, b2] bInf
    [a1 * b1, a2 * b2, a3 * b3, aInf * bInf]
  | _ => []

/-- The two parts of five factors, at 1 to 4 and infinity. -/
def evalProd5Halves (p0 p1 p2 p3 p4 : F × F) : List (F × F) :=
  let (a1, a2, aInf) := evalLinearProd2Internal p0 p1
  let a3 := ex2 [a1, a2] aInf
  let a4 := ex2 [a2, a3] aInf
  let (r1, r2, rInf) := evalLinearProd2Internal p3 p4
  let r3 := ex2 [r1, r2] rInf
  let r4 := ex2 [r2, r3] rInf
  let delta := p2.2 - p2.1
  let l1 := p2.2
  let l2 := l1 + delta
  let l3 := l2 + delta
  let l4 := l3 + delta
  [(a1, l1 * r1), (a2, l2 * r2), (a3, l3 * r3), (a4, l4 * r4), (aInf, delta * rInf)]

def evalProd5Assign : List (F × F) → List F
  | [p0, p1, p2, p3, p4] => (evalProd5Halves p0 p1 p2 p3 p4).map fun ab => ab.1 * ab.2
  | _ => []

/-- A product that starts from the first factor; there is one. -/
def productFromFirst : List F → F
  | [] => 1
  | first :: rest => rest.foldl (· * ·) first

/-- The values at as many points, each factor moved on by its leading coefficient from one
to the next, and the value at infinity. -/
def slideValues : Nat → List (F × F) → List F
  | 0, curValsPinfs => [productFromFirst (curValsPinfs.map Prod.snd)]
  | points + 1, curValsPinfs =>
    productFromFirst (curValsPinfs.map Prod.fst) ::
      slideValues points (curValsPinfs.map fun vp => (vp.1 + vp.2, vp.2))

/-- The loop of the kernels for 6 and 7 factors and of the naive one. -/
def slidingKernel (p : List (F × F)) : List F :=
  slideValues (p.length - 1) (p.map fun pair => (pair.2, pair.2 - pair.1))

def evalProd6Assign (p : List (F × F)) : List F := slidingKernel p

def evalProd7Assign (p : List (F × F)) : List F := slidingKernel p

/-- `eval_linear_prod_naive_assign`. -/
def evalLinearProdNaiveAssign (pairs : List (F × F)) : List F :=
  if pairs = [] then [] else slidingKernel pairs

/-- `batch_helper` of `eval_prod_8_assign`. -/
def batchHelper7 (f0 f1 f2 f3 fInf : F) : F × F × F :=
  let fInf6 := fInf * 6
  let (f4, f5) := ex4Two [f0, f1, f2, f3] fInf6
  let f6 := ex4 [f2, f3, f4, f5] fInf6
  (f4, f5, f6)

def evalProd8Assign (p : List (F × F)) : List F :=
  let (a1, a2, a3, a4, aInf) := evalLinearProd4Internal (p.take 4)
  let (a5, a6, a7) := batchHelper7 a1 a2 a3 a4 aInf
  let (b1, b2, b3, b4, bInf) := evalLinearProd4Internal (p.drop 4)
  let (b5, b6, b7) := batchHelper7 b1 b2 b3 b4 bInf
  [a1 * b1, a2 * b2, a3 * b3, a4 * b4, a5 * b5, a6 * b6, a7 * b7, aInf * bInf]

def evalProd16Assign (p : List (F × F)) : List F :=
  let a := evalLinearProd8Internal (p.take 8)
  let b := evalLinearProd8Internal (p.drop 8)
  let aw := slide (ex8 (a.getD 8 0 * 40320)) 8 7 (a.take 8)
  let bw := slide (ex8 (b.getD 8 0 * 40320)) 8 7 (b.take 8)
  List.zipWith (· * ·) aw bw ++ [a.getD 8 0 * b.getD 8 0]

def evalProd32Assign (p : List (F × F)) : List F :=
  let (a16Base, aInf) := evalHalf16Base (p.take 16)
  let aFull := expand16ToU32 a16Base aInf
  let (b16Base, bInf) := evalHalf16Base (p.drop 16)
  let bFull := expand16ToU32 b16Base bInf
  List.zipWith (· * ·) aFull bFull

/-- `eval_linear_prod_assign`. -/
def evalLinearProdAssign (pairs : List (F × F)) : List F :=
  match pairs.length with
  | 2 => evalProd2Assign pairs
  | 3 => evalProd3Assign pairs
  | 4 => evalProd4Assign pairs
  | 5 => evalProd5Assign pairs
  | 6 => evalProd6Assign pairs
  | 7 => evalProd7Assign pairs
  | 8 => evalProd8Assign pairs
  | 16 => evalProd16Assign pairs
  | 32 => evalProd32Assign pairs
  | _ => evalLinearProdNaiveAssign pairs

/-! ## The formulas extrapolate -/

section Windows

variable {ps : List (F × F)} (m : Nat)

theorem ex2_eq (h : ps.length = 2) :
    ex2 [valueAt ps m, valueAt ps (m + 1)] (leadingProduct ps) = valueAt ps (m + 2) := by
  have hsum := sum_choose_valueAt ps m
  simp only [h, Finset.sum_range_succ, Finset.sum_range_zero] at hsum
  norm_num [Nat.choose, Nat.factorial] at hsum
  rw [ex2, dbl]
  linear_combination -hsum

/-- The next value of a product of two factors. -/
theorem ex2_pair (p q : F × F) :
    ex2 [valueAt [p, q] m, valueAt [p, q] (m + 1)] (leadingProduct [p, q]) = valueAt [p, q] (m + 2) :=
  ex2_eq m rfl

theorem ex4_eq (h : ps.length = 4) :
    ex4 [valueAt ps m, valueAt ps (m + 1), valueAt ps (m + 2), valueAt ps (m + 3)]
      (leadingProduct ps * 6) = valueAt ps (m + 4) := by
  have hsum := sum_choose_valueAt ps m
  simp only [h, Finset.sum_range_succ, Finset.sum_range_zero] at hsum
  norm_num [Nat.choose, Nat.factorial] at hsum
  simp only [ex4, dbl]
  linear_combination -hsum

/-- The two next values are that of `ex4`, and that of `ex4` on the window moved on by one. -/
theorem ex4Two_eq_ex4 (f0 f1 f2 f3 fInf6 : F) :
    ex4Two [f0, f1, f2, f3] fInf6 =
      (ex4 [f0, f1, f2, f3] fInf6, ex4 [f1, f2, f3, ex4 [f0, f1, f2, f3] fInf6] fInf6) := by
  simp only [ex4Two, ex4, dbl, Prod.mk.injEq]
  exact ⟨by ring, by ring⟩

theorem ex4Two_eq (h : ps.length = 4) :
    ex4Two [valueAt ps m, valueAt ps (m + 1), valueAt ps (m + 2), valueAt ps (m + 3)]
      (leadingProduct ps * 6) = (valueAt ps (m + 4), valueAt ps (m + 5)) := by
  rw [ex4Two_eq_ex4, ex4_eq m h]
  exact congrArg (Prod.mk _) (ex4_eq (m + 1) h)

theorem ex8_eq (h : ps.length = 8) :
    ex8 (leadingProduct ps * 40320) (tableOf 8 fun k => valueAt ps (m + k)) = valueAt ps (m + 8) := by
  have hsum := sum_choose_valueAt ps m
  simp only [h, Finset.sum_range_succ, Finset.sum_range_zero] at hsum
  norm_num [Nat.choose, Nat.factorial] at hsum
  simp only [tableOf, List.range_succ, List.range_zero, List.nil_append, List.cons_append, List.map_cons,
    List.map_nil, ex8, Nat.add_zero]
  linear_combination -hsum

theorem ex16_eq (h : ps.length = 16) :
    ex16 (leadingProduct ps * 20922789888000) (tableOf 16 fun k => valueAt ps (m + k)) =
      valueAt ps (m + 16) := by
  have hsum := sum_choose_valueAt ps m
  simp only [h, Finset.sum_range_succ, Finset.sum_range_zero] at hsum
  norm_num [Nat.choose, Nat.factorial] at hsum
  simp only [tableOf, List.range_succ, List.range_zero, List.nil_append, List.cons_append, List.map_cons,
    List.map_nil, ex16, Nat.add_zero]
  linear_combination -hsum

end Windows

/-! ## The half-products -/

section Halves

theorem evalLinearProd2Internal_eq (p q : F × F) :
    evalLinearProd2Internal p q = (valueAt [p, q] 1, valueAt [p, q] 2, leadingProduct [p, q]) := by
  simp only [evalLinearProd2Internal, valueAt, productAt, line, leadingProduct, List.map_cons, List.map_nil,
    List.prod_cons, List.prod_nil, Prod.mk.injEq]
  push_cast
  exact ⟨by ring, by ring, by ring⟩

theorem evalLinearProd4Internal_eq {ps : List (F × F)} (h : ps.length = 4) :
    evalLinearProd4Internal ps =
      (valueAt ps 1, valueAt ps 2, valueAt ps 3, valueAt ps 4, leadingProduct ps) := by
  match ps, h with
  | [p0, p1, p2, p3], _ =>
    have hvalue (k : Nat) : valueAt [p0, p1, p2, p3] k = valueAt [p0, p1] k * valueAt [p2, p3] k :=
      valueAt_append [p0, p1] [p2, p3] k
    have hleading : leadingProduct [p0, p1, p2, p3] = leadingProduct [p0, p1] * leadingProduct [p2, p3] :=
      leadingProduct_append [p0, p1] [p2, p3]
    simp only [evalLinearProd4Internal, evalLinearProd2Internal_eq, ex2_pair 1, ex2_pair 2, Nat.reduceAdd, hvalue, hleading]


theorem batchHelper8_eq {ps : List (F × F)} (h : ps.length = 4) :
    batchHelper8 (valueAt ps 1) (valueAt ps 2) (valueAt ps 3) (valueAt ps 4) (leadingProduct ps) =
      (valueAt ps 5, valueAt ps 6, valueAt ps 7, valueAt ps 8) := by
  have hfirst := ex4Two_eq 1 h
  have hsecond := ex4Two_eq 3 h
  simp only [Nat.reduceAdd] at hfirst hsecond
  simp only [batchHelper8, hfirst, hsecond]

theorem batchHelper7_eq {ps : List (F × F)} (h : ps.length = 4) :
    batchHelper7 (valueAt ps 1) (valueAt ps 2) (valueAt ps 3) (valueAt ps 4) (leadingProduct ps) =
      (valueAt ps 5, valueAt ps 6, valueAt ps 7) := by
  have hfirst := ex4Two_eq 1 h
  have hsecond := ex4_eq 3 h
  simp only [Nat.reduceAdd] at hfirst hsecond
  simp only [batchHelper7, hfirst, hsecond]

/-- The grid of a product from those of its two parts. -/
theorem gridTo_halves (m k : Nat) (ps : List (F × F)) :
    gridTo m ps = List.zipWith (· * ·) (gridTo m (ps.take k)) (gridTo m (ps.drop k)) := by
  rw [← gridTo_append, List.take_append_drop]

theorem evalLinearProd8Internal_eq {ps : List (F × F)} (h : ps.length = 8) :
    evalLinearProd8Internal ps = gridTo 8 ps := by
  have hl : (ps.take 4).length = 4 := by rw [List.length_take, h]; rfl
  have hr : (ps.drop 4).length = 4 := by rw [List.length_drop, h]
  rw [gridTo_halves 8 4, evalLinearProd8Internal, evalLinearProd4Internal_eq hl,
    evalLinearProd4Internal_eq hr]
  simp only [batchHelper8_eq hl, batchHelper8_eq hr]
  rfl

@[simp] theorem take_gridTo (m : Nat) (ps : List (F × F)) :
    (gridTo m ps).take m = tableOf m fun k => valueAt ps (k + 1) := List.take_left' length_tableOf

@[simp] theorem getD_gridTo (m : Nat) (ps : List (F × F)) :
    (gridTo m ps).getD m 0 = leadingProduct ps := by
  rw [gridTo, List.getD_eq_getElem?_getD, List.getElem?_append_right (by rw [length_tableOf]), length_tableOf,
    Nat.sub_self]
  rfl

theorem slide_ex8 {ps : List (F × F)} (h : ps.length = 8) (steps : Nat) :
    slide (ex8 (leadingProduct ps * 40320)) 8 steps (tableOf 8 fun k => valueAt ps (k + 1)) =
      tableOf (8 + steps) fun k => valueAt ps (k + 1) := by
  refine slide_tableOf (fun i => ?_) steps
  simp only [Nat.add_right_comm i _ 1]
  exact ex8_eq (i + 1) h

theorem slide_ex16 {ps : List (F × F)} (h : ps.length = 16) (steps : Nat) :
    slide (ex16 (leadingProduct ps * 20922789888000)) 16 steps (tableOf 16 fun k => valueAt ps (k + 1)) =
      tableOf (16 + steps) fun k => valueAt ps (k + 1) := by
  refine slide_tableOf (fun i => ?_) steps
  simp only [Nat.add_right_comm i _ 1]
  exact ex16_eq (i + 1) h

theorem expand8To16_eq {ps : List (F × F)} (h : ps.length = 8) :
    expand8To16 (evalLinearProd8Internal ps) =
      (tableOf 16 fun k => valueAt ps (k + 1), leadingProduct ps) := by
  rw [expand8To16, evalLinearProd8Internal_eq h, getD_gridTo, take_gridTo, slide_ex8 h]

theorem evalHalf16Base_eq {ps : List (F × F)} (h : ps.length = 16) :
    evalHalf16Base ps = (tableOf 16 fun k => valueAt ps (k + 1), leadingProduct ps) := by
  have hl : (ps.take 8).length = 8 := by rw [List.length_take, h]; rfl
  have hr : (ps.drop 8).length = 8 := by rw [List.length_drop, h]
  rw [evalHalf16Base, expand8To16_eq hl, expand8To16_eq hr]
  simp only [zipWith_tableOf, ← valueAt_append, ← leadingProduct_append, List.take_append_drop]

theorem expand16ToU32_eq {ps : List (F × F)} (h : ps.length = 16) :
    expand16ToU32 (tableOf 16 fun k => valueAt ps (k + 1)) (leadingProduct ps) = gridTo 31 ps := by
  rw [expand16ToU32, slide_ex16 h, gridTo]

end Halves

/-! ## The kernels are exact -/

section Kernels

variable {ps : List (F × F)}

theorem valueAt_singleton_one (b : F × F) : valueAt [b] 1 = b.2 := by
  simp [valueAt, productAt, line]

/-- One factor moves on by its leading coefficient. -/
theorem valueAt_singleton_succ (b : F × F) (k : Nat) : valueAt [b] (k + 1) = valueAt [b] k + (b.2 - b.1) := by
  simp only [valueAt, productAt, line, List.map_cons, List.map_nil, List.prod_cons, List.prod_nil, mul_one]
  push_cast
  ring

theorem leadingProduct_singleton (b : F × F) : leadingProduct [b] = b.2 - b.1 := by simp [leadingProduct]

/-- The values of one factor from `value` on, and its leading coefficient. -/
def progression (delta : F) : Nat → F → List F
  | 0, _ => [delta]
  | points + 1, value => value :: progression delta points (value + delta)

theorem progression_valueAt (b : F × F) (points s : Nat) :
    progression (b.2 - b.1) points (valueAt [b] s) =
      tableOf points (fun k => valueAt [b] (s + k)) ++ [leadingProduct [b]] := by
  induction points generalizing s with
  | zero =>
    rw [progression, ← leadingProduct_singleton]
    rfl
  | succ points ih =>
    rw [progression, ← valueAt_singleton_succ, ih, Nat.add_comm points 1, tableOf_add]
    simp only [Nat.add_assoc]
    rfl

theorem gridTo_singleton (m : Nat) (b : F × F) : gridTo m [b] = progression (b.2 - b.1) m b.2 := by
  have hprogression := progression_valueAt b m 1
  rw [valueAt_singleton_one] at hprogression
  rw [hprogression, gridTo]
  simp only [Nat.add_comm 1]

/-- The grid of five factors from those of the two parts. -/
theorem evalProd5Halves_eq (p0 p1 p2 p3 p4 : F × F) :
    evalProd5Halves p0 p1 p2 p3 p4 = List.zip (gridTo 4 [p0, p1]) (gridTo 4 [p2, p3, p4]) := by
  have htail : gridTo 4 [p2, p3, p4] = List.zipWith (· * ·) (gridTo 4 [p2]) (gridTo 4 [p3, p4]) :=
    gridTo_append 4 [p2] [p3, p4]
  simp only [evalProd5Halves, evalLinearProd2Internal_eq, ex2_pair 1,
    ex2_pair 2, Nat.reduceAdd, htail, gridTo_singleton]
  rfl

theorem evalProd5Assign_eq (h : ps.length = 5) : evalProd5Assign ps = grid ps := by
  match ps, h with
  | [p0, p1, p2, p3, p4], _ =>
    have hgrid : grid [p0, p1, p2, p3, p4] =
        List.zipWith (· * ·) (gridTo 4 [p0, p1]) (gridTo 4 [p2, p3, p4]) :=
      gridTo_append 4 [p0, p1] [p2, p3, p4]
    rw [evalProd5Assign, evalProd5Halves_eq, hgrid, List.zip, List.map_zipWith]

theorem evalProd2Assign_eq (h : ps.length = 2) : evalProd2Assign ps = grid ps := by
  match ps, h with
  | [p, q], _ =>
    have hinternal := evalLinearProd2Internal_eq p q
    simp only [evalLinearProd2Internal, Prod.mk.injEq] at hinternal
    rw [evalProd2Assign, hinternal.1, hinternal.2.2]
    rfl

theorem evalProd3Assign_eq (h : ps.length = 3) : evalProd3Assign ps = grid ps := by
  match ps, h with
  | [p, q, b], _ =>
    have hgrid : grid [p, q, b] = List.zipWith (· * ·) (gridTo 2 [p, q]) (gridTo 2 [b]) :=
      gridTo_append 2 [p, q] [b]
    rw [hgrid, gridTo_singleton]
    simp only [evalProd3Assign, evalLinearProd2Internal_eq]
    rfl

theorem evalProd4Assign_eq (h : ps.length = 4) : evalProd4Assign ps = grid ps := by
  match ps, h with
  | [p0, p1, p2, p3], _ =>
    have hgrid : grid [p0, p1, p2, p3] = List.zipWith (· * ·) (gridTo 3 [p0, p1]) (gridTo 3 [p2, p3]) :=
      gridTo_append 3 [p0, p1] [p2, p3]
    simp only [evalProd4Assign, evalLinearProd2Internal_eq, ex2_pair 1, Nat.reduceAdd, hgrid]
    rfl

theorem productFromFirst_eq (l : List F) : productFromFirst l = l.prod := by
  cases l with
  | nil => rfl
  | cons first rest =>
    rw [productFromFirst, List.prod_eq_foldl, List.foldl_cons, one_mul]

/-- **The values slid** from any point on are those of the product. -/
theorem slideValues_eq (ps : List (F × F)) (points s : Nat) :
    slideValues points (ps.map fun p => (line (s : F) p.1 p.2, p.2 - p.1)) =
      tableOf points (fun k => valueAt ps (s + k)) ++ [leadingProduct ps] := by
  induction points generalizing s with
  | zero =>
    rw [slideValues, productFromFirst_eq, List.map_map]
    rfl
  | succ points ih =>
    have hstep : (ps.map fun p => (line (s : F) p.1 p.2, p.2 - p.1)).map (fun vp => (vp.1 + vp.2, vp.2)) =
        ps.map fun p => (line ((s + 1 : Nat) : F) p.1 p.2, p.2 - p.1) := by
      rw [List.map_map]
      refine List.map_congr_left fun p _ => ?_
      simp only [Function.comp_apply, line, Prod.mk.injEq, and_true]
      push_cast
      ring
    rw [slideValues, hstep, ih, productFromFirst_eq, List.map_map, Nat.add_comm points 1, tableOf_add]
    simp only [Nat.add_assoc]
    rfl

theorem slidingKernel_eq (ps : List (F × F)) : slidingKernel ps = grid ps := by
  have hslide := slideValues_eq ps (ps.length - 1) 1
  have hstart : (ps.map fun p => (line ((1 : Nat) : F) p.1 p.2, p.2 - p.1)) =
      ps.map fun p => (p.2, p.2 - p.1) :=
    List.map_congr_left fun p _ => by simp [line]
  rw [hstart] at hslide
  rw [slidingKernel, hslide, grid, gridTo]
  simp only [Nat.add_comm 1]

theorem evalLinearProdNaiveAssign_eq (h : ps ≠ []) : evalLinearProdNaiveAssign ps = grid ps := by
  rw [evalLinearProdNaiveAssign, if_neg h, slidingKernel_eq]

theorem evalProd8Assign_eq (h : ps.length = 8) : evalProd8Assign ps = grid ps := by
  have hl : (ps.take 4).length = 4 := by rw [List.length_take, h]; rfl
  have hr : (ps.drop 4).length = 4 := by rw [List.length_drop, h]
  rw [grid, h, gridTo_halves 7 4, evalProd8Assign, evalLinearProd4Internal_eq hl,
    evalLinearProd4Internal_eq hr]
  simp only [batchHelper7_eq hl, batchHelper7_eq hr]
  rfl

theorem evalProd16Assign_eq (h : ps.length = 16) : evalProd16Assign ps = grid ps := by
  have hl : (ps.take 8).length = 8 := by rw [List.length_take, h]; rfl
  have hr : (ps.drop 8).length = 8 := by rw [List.length_drop, h]
  rw [grid, h, gridTo_halves 15 8, evalProd16Assign]
  simp only [evalLinearProd8Internal_eq hl, evalLinearProd8Internal_eq hr, getD_gridTo, take_gridTo,
    slide_ex8 hl, slide_ex8 hr]
  rw [gridTo, gridTo, List.zipWith_append (by rw [length_tableOf, length_tableOf])]
  rfl

theorem evalProd32Assign_eq (h : ps.length = 32) : evalProd32Assign ps = grid ps := by
  have hl : (ps.take 16).length = 16 := by rw [List.length_take, h]; rfl
  have hr : (ps.drop 16).length = 16 := by rw [List.length_drop, h]
  rw [grid, h, gridTo_halves 31 16, evalProd32Assign, evalHalf16Base_eq hl, evalHalf16Base_eq hr]
  simp only [expand16ToU32_eq hl, expand16ToU32_eq hr]

/-- **The kernel of every number of factors** writes the grid of their product. -/
theorem evalLinearProdAssign_eq (h : ps ≠ []) : evalLinearProdAssign ps = grid ps := by
  unfold evalLinearProdAssign
  split
  case h_1 hlen => exact evalProd2Assign_eq hlen
  case h_2 hlen => exact evalProd3Assign_eq hlen
  case h_3 hlen => exact evalProd4Assign_eq hlen
  case h_4 hlen => exact evalProd5Assign_eq hlen
  case h_5 => exact slidingKernel_eq ps
  case h_6 => exact slidingKernel_eq ps
  case h_7 hlen => exact evalProd8Assign_eq hlen
  case h_8 hlen => exact evalProd16Assign_eq hlen
  case h_9 hlen => exact evalProd32Assign_eq hlen
  case h_10 => exact evalLinearProdNaiveAssign_eq h

end Kernels

end LightningJolt
