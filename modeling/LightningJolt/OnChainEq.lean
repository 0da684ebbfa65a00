/-
The equality, less-than and successor polynomials of the contract
(`onchain-verifier/contracts/EqPolynomial.sol`) on arrays in its memory, against the Rust ones
(`jolt-core/src/poly/eq_poly.rs`, `lt_poly.rs`, `eq_plus_one_poly.rs`) on the residues of their words.
-/
import LightningJolt.EqPlusOne
import LightningJolt.LtPolynomial
import LightningJolt.OnChainBatched

namespace LightningJolt

open Finset SumcheckVerifier

/-! ## Arrays in memory -/

/-- Memory, by the word that `mload` gives at an address. -/
abbrev EvmMemory := Word → Word

namespace EvmMemory

/-- The address of an element: past the length, so many words further. -/
def slot (p i : Word) : Word := p + 32 + i * 32

variable (mem : EvmMemory)

/-- The address of an element, with the check of Solidity's indexing. -/
def index (p i : Word) : Option Word := if i < mem p then .some (slot p i) else .none

/-- An array at an address: its length, and its words after it. -/
structure IsArray (p : Word) (words : List Word) : Prop where
  length_eq : mem p = BitVec.ofNat 256 words.length
  fits : p.toNat + 32 * (words.length + 1) ≤ 2 ^ 256
  words_eq : ∀ i < words.length, words[i]? = .some (mem (slot p (BitVec.ofNat 256 i)))

/-- An address of an array of so many words: of its length or of an element. -/
def Inside (p : Word) (n : Nat) (a : Word) : Prop := a = p ∨ ∃ i < n, a = slot p (BitVec.ofNat 256 i)

end EvmMemory

/-- What a function returns, and the addresses that it loaded. -/
structure Answer where
  result : Word
  reads : List Word
deriving DecidableEq

/-- The answer of a loop after the lengths have been loaded. -/
def Answer.after (heads : List Word) (a : Answer) : Answer := { a with reads := heads ++ a.reads }

namespace EqPolynomialLibrary

open EvmMemory

variable (mem : EvmMemory)

/-! ## The contract -/

/-- An iteration of the loop of the `mle`s. -/
def mleStep (result xi yi : Word) : Word :=
  let xiyi := xi.mulmod yi scalarModulus
  let term := xiyi.addmod (((1 : Word).addmod xiyi scalarModulus).addmod
    (subFromR (xi.addmod yi scalarModulus)) scalarModulus) scalarModulus
  result.mulmod term scalarModulus

/-- The loop of the `mle`s, over the addresses of the two elements. -/
def mleLoop (xAt yAt : Word → Word) (len : Word) : Answer where
  result := (List.range len.toNat).foldl (fun result i =>
    mleStep result (mem (xAt (BitVec.ofNat 256 i))) (mem (yAt (BitVec.ofNat 256 i)))) 1
  reads := (List.range len.toNat).flatMap fun i => [xAt (BitVec.ofNat 256 i), yAt (BitVec.ofNat 256 i)]

def mle (x y : Word) : Option Answer :=
  if mem x = mem y then .some ((mleLoop mem (slot x) (slot y) (mem x)).after [x, y]) else .none

def mleReversed (x y : Word) : Option Answer :=
  if mem x = mem y then .some ((mleLoop mem (slot x) (fun i => slot y (mem x - 1 - i)) (mem x)).after [x, y])
  else .none

def mleSlice (x arr offset len : Word) : Option Answer :=
  if mem x = len then .some ((mleLoop mem (slot x) (fun i => slot arr (offset + i)) len).after [x]) else .none

def mleSliceReversed (x arr offset len : Word) : Option Answer :=
  if mem x = len then
    .some ((mleLoop mem (slot x) (fun i => slot arr (offset + (len - 1 - i))) len).after [x])
  else .none

/-- An iteration of the loop of the `lt`s: the result and `eqTerm`. -/
def ltStep (state : Word × Word) (xi yi : Word) : Word × Word :=
  let (result, eqTerm) := state
  let contrib := (((1 : Word).addmod (subFromR xi) scalarModulus).mulmod yi scalarModulus).mulmod eqTerm
    scalarModulus
  let xiyi := xi.mulmod yi scalarModulus
  (result.addmod contrib scalarModulus,
    eqTerm.mulmod (((1 : Word).addmod (xiyi.addmod xiyi scalarModulus) scalarModulus).addmod
      (subFromR (xi.addmod yi scalarModulus)) scalarModulus) scalarModulus)

/-- The loop of the `lt`s. -/
def ltLoop (xAt yAt : Word → Word) (len : Word) : Answer where
  result := ((List.range len.toNat).foldl (fun state i =>
    ltStep state (mem (xAt (BitVec.ofNat 256 i))) (mem (yAt (BitVec.ofNat 256 i)))) (0, 1)).1
  reads := (List.range len.toNat).flatMap fun i => [xAt (BitVec.ofNat 256 i), yAt (BitVec.ofNat 256 i)]

def lt (x y : Word) : Option Answer :=
  if mem x = mem y then .some ((ltLoop mem (slot x) (slot y) (mem x)).after [x, y]) else .none

def ltSliceReversed (arr offset len y : Word) : Option Answer :=
  if len = mem y then
    .some ((ltLoop mem (fun i => slot arr (offset + (len - 1 - i))) (slot y) len).after [y])
  else .none

/-- `R - x` of checked arithmetic. -/
def checkedSubFromR (x : Word) : Option Word := if x.toNat ≤ scalarModulus then .some (subFromR x) else .none

/-- An entry of `eqTerms`. -/
def eqTerm (xv yv : Word) : Option Word := do
  let xvyv := xv.mulmod yv scalarModulus
  let term := ((1 : Word).addmod xvyv scalarModulus).addmod
    (← checkedSubFromR (xv.addmod yv scalarModulus)) scalarModulus
  .some (xvyv.addmod term scalarModulus)

/-- `suffixProd`, filled from its last entry. -/
def suffixProd : List Word → List Word
  | [] => [1]
  | t :: ts => ((suffixProd ts).headD 1).mulmod t scalarModulus :: suffixProd ts

/-- An iteration of the last loop: the result and `lowerProd`. -/
def eqPlusOneStep (state : Word × Word) (xv yv higherProd : Word) : Option (Word × Word) := do
  let (result, lowerProd) := state
  let kthProd := ((1 : Word).addmod (← checkedSubFromR xv) scalarModulus).mulmod yv scalarModulus
  let result := result.addmod ((lowerProd.mulmod kthProd scalarModulus).mulmod higherProd scalarModulus) scalarModulus
  let notY := (1 : Word).addmod (← checkedSubFromR yv) scalarModulus
  .some (result, lowerProd.mulmod (xv.mulmod notY scalarModulus) scalarModulus)

/-- The body of the `eqPlusOne`s, over the addresses of the two elements from the last. -/
def eqPlusOneBody (xAt yAt : Word → Option Word) (len : Word) : Option Answer := do
  if len = 0 then .some ⟨0, []⟩
  else
    let xAddresses ← (List.range len.toNat).mapM fun i => xAt (BitVec.ofNat 256 i)
    let yAddresses ← (List.range len.toNat).mapM fun i => yAt (BitVec.ofNat 256 i)
    let pairs := (xAddresses.map mem).zip (yAddresses.map mem)
    let eqTerms ← pairs.mapM fun p => eqTerm p.1 p.2
    let state ← (pairs.zip (suffixProd eqTerms).tail).foldlM
      (fun state p => eqPlusOneStep state p.1.1 p.1.2 p.2) ((0 : Word), (1 : Word))
    .some ⟨state.1, xAddresses ++ yAddresses⟩

def eqPlusOne (x y : Word) : Option Answer :=
  if mem x = mem y then
    (eqPlusOneBody mem (fun k => index mem x (mem x - 1 - k)) (fun k => index mem y (mem x - 1 - k)) (mem x)).map
      (Answer.after [x, y])
  else .none

/-- `offset + i` of checked arithmetic. -/
def checkedAdd (a b : Word) : Option Word := if a.toNat + b.toNat < 2 ^ 256 then .some (a + b) else .none

def eqPlusOneSliceReversed (x arr offset len : Word) : Option Answer :=
  if mem x = len then
    (eqPlusOneBody mem (fun k => index mem x (len - 1 - k))
      (fun k => do index mem arr (← checkedAdd offset k)) len).map (Answer.after [x, arr])
  else .none

/-! ## What it should be -/

/-- A function reverts, or returns the value and loads nothing outside the arrays. -/
def Meets (answer : Option Answer) (value : Option Fr) (inside : Word → Prop) : Prop :=
  ∀ a, answer = .some a → value = .some (a.result.residue) ∧ a.result.toNat < scalarModulus ∧
    ∀ r ∈ a.reads, inside r

/-- The words of an array from an offset on, where it has so many. -/
def sliceOf (arr : List Word) (offset len : Nat) : Option (List Word) :=
  (List.range len).mapM fun i => arr[offset + i]?

/-- The less-than extension: the table of `lt_evals` at a point. -/
def ltExtension {F : Type} [JoltField F] [Challenge F F] (x y : List F) : F :=
  ∑ j ∈ range (2 ^ x.length), eqAt x j * (ltEvals y : List F).getD j 0

/-- What wrapped subtractions add to a comparison, in units of `2 ^ 256`. -/
def ltExcess : List Word → List Word → Fr
  | x :: xs, y :: ys =>
    (if scalarModulus < x.toNat then y.residue else 0) + eqFactor x.residue y.residue * ltExcess xs ys
  | _, _ => 0

/-! ## The loops on words -/

section Loops

variable {mem : EvmMemory} {inside : Word → Prop} {xAt yAt : Word → Word} {len : Word} {xs ys : List Word}

/-- The addresses of a loop hold the words, and are inside. -/
def Loads (mem : EvmMemory) (inside : Word → Prop) (address : Word → Word) (words : List Word) : Prop :=
  ∀ i < words.length, words[i]? = .some (mem (address (BitVec.ofNat 256 i))) ∧ inside (address (BitVec.ofNat 256 i))

theorem zip_loads (hx : Loads mem inside xAt xs) (hy : Loads mem inside yAt ys) (hlen : ys.length = xs.length) :
    xs.zip ys = (List.range xs.length).map fun i =>
      (mem (xAt (BitVec.ofNat 256 i)), mem (yAt (BitVec.ofNat 256 i))) := by
  refine List.ext_getElem (by simp [hlen]) fun i h1 h2 => ?_
  have hi : i < xs.length := by simpa using h2
  have hxi := (hx i hi).1
  have hyi := (hy i (hlen ▸ hi)).1
  rw [List.getElem?_eq_getElem hi, Option.some.injEq] at hxi
  rw [List.getElem?_eq_getElem (hlen ▸ hi), Option.some.injEq] at hyi
  rw [List.getElem_zip, List.getElem_map, List.getElem_range, hxi, hyi]

/-- A loop over the addresses is one over the words. -/
theorem foldl_loads {σ : Type} (f : σ → Word → Word → σ) (s : σ) (hx : Loads mem inside xAt xs) (hy : Loads mem inside yAt ys)
    (hlen : ys.length = xs.length) (hword : len.toNat = xs.length) :
    (List.range len.toNat).foldl (fun s i => f s (mem (xAt (BitVec.ofNat 256 i))) (mem (yAt (BitVec.ofNat 256 i)))) s =
      (xs.zip ys).foldl (fun s p => f s p.1 p.2) s := by
  rw [zip_loads hx hy hlen, List.foldl_map, hword]

theorem residue_one : (1 : Word).residue = 1 := by simp [Word.residue]

theorem residue_mleStep (result xi yi : Word) :
    (mleStep result xi yi).residue = result.residue * eqFactor xi.residue yi.residue := by
  rw [mleStep, residue_mulmod, residue_addmod, residue_addmod, residue_addmod, residue_mulmod,
    residue_subFromR_addmod, residue_one, eqFactor]
  ring

/-- The factors multiplied in turn. -/
theorem foldl_mleStep (l : List (Word × Word)) (acc : Word) (hacc : acc.toNat < scalarModulus) :
    (l.foldl (fun result p => mleStep result p.1 p.2) acc).residue =
      acc.residue * (l.map fun p => eqFactor p.1.residue p.2.residue).prod ∧
    (l.foldl (fun result p => mleStep result p.1 p.2) acc).toNat < scalarModulus := by
  induction l generalizing acc with
  | nil => exact ⟨by simp, hacc⟩
  | cons p l ih =>
    obtain ⟨hres, hlt⟩ := ih (mleStep acc p.1 p.2) (mulmod_lt acc _)
    rw [List.foldl_cons]
    exact ⟨by rw [hres, residue_mleStep, List.map_cons, List.prod_cons, mul_assoc], hlt⟩

theorem eqMle_eq_prod (xs ys : List Word) :
    ((xs.zip ys).map fun p => eqFactor p.1.residue p.2.residue).prod =
      EqPolynomial.mle (xs.map Word.residue) (ys.map Word.residue) := by
  rw [EqPolynomial.mle, List.zipWith_map, List.zip, List.map_zipWith]
  congr 2
  funext x y
  rw [eqFactor]
  ring

/-- **The loop of the `mle`s** multiplies the factors. -/
theorem mleLoop_result (hx : Loads mem inside xAt xs) (hy : Loads mem inside yAt ys) (hlen : ys.length = xs.length)
    (hword : len.toNat = xs.length) :
    (mleLoop mem xAt yAt len).result.residue = EqPolynomial.mle (xs.map Word.residue) (ys.map Word.residue) ∧
      (mleLoop mem xAt yAt len).result.toNat < scalarModulus := by
  obtain ⟨hres, hlt⟩ := foldl_mleStep (xs.zip ys) 1 (by decide)
  rw [mleLoop, foldl_loads mleStep 1 hx hy hlen hword]
  exact ⟨by rw [hres, residue_one, one_mul, eqMle_eq_prod], hlt⟩

/-! ## Comparisons -/

theorem residue_ltStep (state : Word × Word) (xi yi : Word) :
    (ltStep state xi yi).1.residue = state.1.residue + (1 - xi.residue +
        if scalarModulus < xi.toNat then 2 ^ 256 else 0) * yi.residue * state.2.residue ∧
      (ltStep state xi yi).2.residue = state.2.residue * eqFactor xi.residue yi.residue := by
  constructor
  · simp only [ltStep, residue_addmod, residue_mulmod, residue_subFromR, residue_one]
    ring
  · simp only [ltStep, residue_addmod, residue_mulmod, residue_subFromR_addmod, residue_one, eqFactor]
    ring

theorem ltExtension_nil : ltExtension ([] : List Fr) [] = 0 := by
  simp [ltExtension, ltEvals]

/-- A comparison goes by the first coordinate, and by the others where these agree. -/
theorem ltExtension_cons {x y : Fr} {xs ys : List Fr} (h : ys.length = xs.length) :
    ltExtension (x :: xs) (y :: ys) = (1 - x) * y + eqFactor x y * ltExtension xs ys := by
  have hmap (l : List Fr) : l.map (Challenge.into : Fr → Fr) = l := List.map_id l
  rw [ltExtension, ltExtension, ltEvals_eq, ltEvals_eq, hmap, hmap, List.length_cons, List.length_cons, h,
    pow_succ, mul_two, sum_range_add]
  have hlow : ∀ j ∈ range (2 ^ xs.length), eqAt (x :: xs) j * (tableOf (2 ^ xs.length + 2 ^ xs.length)
      (ltAt (y :: ys))).getD j 0 = (1 - x) * eqAt xs j * (ltAt ys j + (y - ltAt ys j * y)) := by
    intro j hj
    rw [mem_range] at hj
    rw [getD_tableOf (by omega), eqAt_cons_low x xs hj, (ltAt_cons y ys (h ▸ hj)).1]
  have hhigh : ∀ j ∈ range (2 ^ xs.length), eqAt (x :: xs) (2 ^ xs.length + j) *
      (tableOf (2 ^ xs.length + 2 ^ xs.length) (ltAt (y :: ys))).getD (2 ^ xs.length + j) 0 =
        x * eqAt xs j * (ltAt ys j * y) := by
    intro j hj
    rw [mem_range] at hj
    have hset := (ltAt_cons y ys (h ▸ hj)).2
    rw [h] at hset
    rw [getD_tableOf (by omega), eqAt_cons_high x xs hj, hset]
  have hentry : ∀ j ∈ range (2 ^ xs.length), eqAt xs j * (tableOf (2 ^ xs.length) (ltAt ys)).getD j 0 =
      eqAt xs j * ltAt ys j := by
    intro j hj
    rw [mem_range] at hj
    rw [getD_tableOf hj]
  rw [sum_congr rfl hlow, sum_congr rfl hhigh, sum_congr rfl hentry]
  calc _ = (1 - x) * y * ∑ j ∈ range (2 ^ xs.length), eqAt xs j +
        eqFactor x y * ∑ j ∈ range (2 ^ xs.length), eqAt xs j * ltAt ys j := by
        rw [mul_sum, mul_sum, ← sum_add_distrib, ← sum_add_distrib]
        refine sum_congr rfl fun j _ => ?_
        rw [eqFactor]
        ring
    _ = _ := by rw [sum_eqAt, mul_one]

/-- **The loop of the `lt`s** compares, and adds the excess of the subtractions that wrap. -/
theorem foldl_ltStep (hlen : ys.length = xs.length) (state : Word × Word) (hstate : state.1.toNat < scalarModulus) :
    ((xs.zip ys).foldl (fun s p => ltStep s p.1 p.2) state).1.residue = state.1.residue + state.2.residue *
        (ltExtension (xs.map Word.residue) (ys.map Word.residue) + 2 ^ 256 * ltExcess xs ys) ∧
      ((xs.zip ys).foldl (fun s p => ltStep s p.1 p.2) state).1.toNat < scalarModulus := by
  induction xs generalizing ys state with
  | nil =>
    obtain rfl : ys = [] := List.length_eq_zero_iff.mp hlen
    refine ⟨?_, hstate⟩
    rw [List.map_nil, ltExtension_nil, ltExcess, mul_zero, add_zero, mul_zero, add_zero]
    · rfl
    · simp
  | cons x xs ih =>
    obtain ⟨y, ys, rfl⟩ := List.exists_cons_of_length_eq_add_one hlen
    rw [List.length_cons, List.length_cons, Nat.add_right_cancel_iff] at hlen
    obtain ⟨hres, hlt⟩ := ih hlen (ltStep state x y) (addmod_lt _ _)
    obtain ⟨hfirst, hsecond⟩ := residue_ltStep state x y
    rw [List.zip_cons_cons, List.foldl_cons]
    refine ⟨?_, hlt⟩
    rw [hres, hfirst, hsecond, List.map_cons, List.map_cons, ltExtension_cons (by simpa using hlen), ltExcess]
    split_ifs <;> ring

theorem ltLoop_result (hx : Loads mem inside xAt xs) (hy : Loads mem inside yAt ys) (hlen : ys.length = xs.length)
    (hword : len.toNat = xs.length) :
    (ltLoop mem xAt yAt len).result.residue =
        ltExtension (xs.map Word.residue) (ys.map Word.residue) + 2 ^ 256 * ltExcess xs ys ∧
      (ltLoop mem xAt yAt len).result.toNat < scalarModulus := by
  obtain ⟨hres, hlt⟩ := foldl_ltStep hlen (0, 1) (by decide)
  rw [ltLoop, foldl_loads ltStep (0, 1) hx hy hlen hword]
  refine ⟨?_, hlt⟩
  have hzero : (0 : Word).residue = 0 := by simp [Word.residue]
  rw [hres, residue_one, hzero, zero_add, one_mul]

/-- The addresses that a loop loads. -/
theorem reads_inside (hx : Loads mem inside xAt xs) (hy : Loads mem inside yAt ys) (hlen : ys.length = xs.length)
    (hword : len.toNat = xs.length) :
    ∀ r ∈ (List.range len.toNat).flatMap fun i => [xAt (BitVec.ofNat 256 i), yAt (BitVec.ofNat 256 i)],
      inside r := by
  intro r hr
  obtain ⟨i, hi, hr⟩ := List.mem_flatMap.mp hr
  rw [List.mem_range, hword] at hi
  rcases List.mem_pair.mp hr with rfl | rfl
  · exact (hx i hi).2
  · exact (hy i (hlen ▸ hi)).2

end Loops

/-! ## Addresses -/

theorem isSome_of_mapM {α β : Type} {f : α → Option β} {l : List α} {ys : List β} (h : l.mapM f = .some ys)
    {a : α} (ha : a ∈ l) : ∃ b, f a = .some b := by
  have hmem : f a ∈ l.map f := List.mem_map_of_mem ha
  rw [map_eq_of_mapM h] at hmem
  obtain ⟨b, -, hb⟩ := List.mem_map.mp hmem
  exact ⟨b, hb.symm⟩

section Addresses

variable {mem : EvmMemory} {inside : Word → Prop} {p : Word} {words : List Word}

theorem length_toNat (h : IsArray mem p words) : (mem p).toNat = words.length := by
  have hfits := h.fits
  rw [h.length_eq, BitVec.toNat_ofNat, Nat.mod_eq_of_lt (by omega)]

theorem loads_array (h : IsArray mem p words) (hinside : ∀ a, Inside p words.length a → inside a) :
    Loads mem inside (slot p) words := fun i hi =>
  ⟨h.words_eq i hi, hinside _ (.inr ⟨i, hi, rfl⟩)⟩

/-- An index from the last. -/
theorem sub_one_sub {n : Word} {i : Nat} (hi : i < n.toNat) :
    n - 1 - BitVec.ofNat 256 i = BitVec.ofNat 256 (n.toNat - 1 - i) := by
  have hn := n.isLt
  have hone : (1 : Word).toNat = 1 := rfl
  refine BitVec.eq_of_toNat_eq ?_
  rw [BitVec.toNat_sub, BitVec.toNat_sub, BitVec.toNat_ofNat, BitVec.toNat_ofNat, hone,
    Nat.mod_eq_of_lt (show i < 2 ^ 256 by omega)]
  omega

/-- The words in reverse, at the addresses in reverse. -/
theorem loads_reverse {address : Word → Word} {n : Word} (h : Loads mem inside address words)
    (hn : n.toNat = words.length) : Loads mem inside (fun i => address (n - 1 - i)) words.reverse := by
  intro i hi
  rw [List.length_reverse] at hi
  have hlast : words.length - 1 - i < words.length := by omega
  dsimp only
  rw [sub_one_sub (hn ▸ hi), hn, List.getElem?_reverse hi]
  exact h _ hlast

theorem add_ofNat {offset : Word} {i n : Nat} (h : offset.toNat + i < n) (hn : n < 2 ^ 256) :
    offset + BitVec.ofNat 256 i = BitVec.ofNat 256 (offset.toNat + i) := by
  refine BitVec.eq_of_toNat_eq ?_
  rw [BitVec.toNat_add, BitVec.toNat_ofNat, BitVec.toNat_ofNat, Nat.mod_eq_of_lt (show i < 2 ^ 256 by omega)]

theorem sliceOf_eq {offset len : Nat} (h : ∀ i < len, offset + i < words.length) :
    sliceOf words offset len = .some ((words.drop offset).take len) := by
  have hget : ∀ i < len, words[offset + i]? = .some (words.getD (offset + i) 0) := by
    intro i hi
    rw [List.getElem?_eq_getElem (h i hi), List.getD_eq_getElem _ _ (h i hi)]
  rw [sliceOf, mapM_range hget]
  congr 1
  rcases Nat.eq_zero_or_pos len with rfl | hpos
  · rfl
  · have hlast := h (len - 1) (by omega)
    refine List.ext_getElem ?_ fun i h1 h2 => ?_
    · rw [length_tableOf, List.length_take, List.length_drop]
      omega
    · rw [length_tableOf] at h1
      simp only [tableOf, List.getElem_map, List.getElem_range, List.getElem_take, List.getElem_drop]
      exact List.getD_eq_getElem _ _ (h i h1)

theorem sliceOf_isSome {offset len : Nat} {slice : List Word} (h : sliceOf words offset len = .some slice) :
    ∀ i < len, offset + i < words.length := by
  intro i hi
  obtain ⟨w, hw⟩ := isSome_of_mapM h (List.mem_range.mpr hi)
  exact (List.getElem?_eq_some_iff.mp hw).1

theorem loads_slice {arr offset : Word} {n : Nat} (h : IsArray mem arr words)
    (hslice : ∀ i < n, offset.toNat + i < words.length)
    (hinside : ∀ a, Inside arr words.length a → inside a) :
    Loads mem inside (fun i => slot arr (offset + i)) ((words.drop offset.toNat).take n) := by
  intro i hi
  have hfits := h.fits
  have hin : i < n := by
    rw [List.length_take] at hi
    omega
  have hword := hslice i hin
  dsimp only
  rw [add_ofNat hword (by omega)]
  refine ⟨?_, hinside _ (.inr ⟨_, hword, rfl⟩)⟩
  rw [List.getElem?_take_of_lt hin, List.getElem?_drop]
  exact h.words_eq _ hword

end Addresses


/-! ## Successors -/

/-- The successor polynomial, the lowest coordinates first. -/
def successorFrom {F : Type} [JoltField F] : List F → List F → F
  | x :: xs, y :: ys => (1 - x) * y * EqPolynomial.mle xs ys + x * (1 - y) * successorFrom xs ys
  | _, _ => 0

theorem prod_getD_mle {F : Type} [JoltField F] {xs ys : List F} (h : ys.length = xs.length) :
    ∏ t ∈ range xs.length, (xs.getD t 0 * ys.getD t 0 + (1 - xs.getD t 0) * (1 - ys.getD t 0)) =
      EqPolynomial.mle xs ys := by
  induction xs generalizing ys with
  | nil => simp [EqPolynomial.mle]
  | cons x xs ih =>
    obtain ⟨y, ys, rfl⟩ := List.exists_cons_of_length_eq_add_one h
    rw [List.length_cons, prod_range_succ']
    simp only [List.getD_cons_succ, List.getD_cons_zero]
    rw [ih (by simpa using h), EqPolynomial.mle, EqPolynomial.mle, List.zipWith_cons_cons, List.prod_cons, mul_comm]

theorem sum_successor {F : Type} [JoltField F] {xs ys : List F} (h : ys.length = xs.length) :
    ∑ k ∈ range xs.length, (∏ i ∈ range k, xs.getD i 0 * (1 - ys.getD i 0)) *
        ((1 - xs.getD k 0) * ys.getD k 0) * ∏ t ∈ range (xs.length - (k + 1)),
          (xs.getD (k + 1 + t) 0 * ys.getD (k + 1 + t) 0 +
            (1 - xs.getD (k + 1 + t) 0) * (1 - ys.getD (k + 1 + t) 0)) = successorFrom xs ys := by
  induction xs generalizing ys with
  | nil => simp [successorFrom]
  | cons x xs ih =>
    obtain ⟨y, ys, rfl⟩ := List.exists_cons_of_length_eq_add_one h
    have hlen : ys.length = xs.length := by simpa using h
    rw [List.length_cons, sum_range_succ', successorFrom, ← prod_getD_mle hlen, ← ih hlen, mul_sum, add_comm]
    congr 1
    · simp only [range_zero, prod_empty, one_mul, List.getD_cons_zero, Nat.zero_add, Nat.add_sub_cancel,
        Nat.add_comm 1, List.getD_cons_succ]
    · refine sum_congr rfl fun k _ => ?_
      have hshift (t : Nat) : k + 1 + 1 + t = k + 1 + t + 1 := by omega
      simp only [prod_range_succ', List.getD_cons_succ, List.getD_cons_zero, Nat.add_sub_add_right, hshift]
      ring

/-- `EqPlusOnePolynomial::evaluate` from the lowest coordinates. -/
theorem evaluate_eq_successorFrom {F : Type} [JoltField F] {x y : List F} (h : y.length = x.length) :
    EqPlusOnePolynomial.evaluate x y = .some (successorFrom x.reverse y.reverse) := by
  have hget (l : List F) (hl : l.length = x.length) {i : Nat} (hi : i < x.length) :
      l.getD (x.length - 1 - i) 0 = l.reverse.getD i 0 := by
    rw [List.getD_eq_getElem?_getD, List.getD_eq_getElem?_getD, List.getElem?_reverse (by omega), hl]
  rw [EqPlusOnePolynomial.evaluate, if_pos h, ← sum_successor (by rw [List.length_reverse, List.length_reverse, h]),
    List.length_reverse]
  congr 1
  refine sum_congr rfl fun k hk => ?_
  rw [mem_range] at hk
  rw [hget x rfl hk, hget y h hk]
  congr 1
  · congr 1
    refine prod_congr rfl fun i hi => ?_
    rw [mem_range] at hi
    rw [hget x rfl (by omega), hget y h (by omega)]
  · refine prod_congr rfl fun t ht => ?_
    rw [mem_range] at ht
    rw [hget x rfl (by omega), hget y h (by omega)]

theorem residue_checkedSubFromR {x z : Word} (h : checkedSubFromR x = .some z) : z.residue = -x.residue := by
  rw [checkedSubFromR] at h
  split_ifs at h with hle
  obtain rfl := Option.some.inj h
  rw [residue_subFromR, if_neg (Nat.not_lt.mpr hle), zero_sub]

theorem residue_eqTerm (xv yv : Word) : ∃ t, eqTerm xv yv = .some t ∧ t.residue = eqFactor xv.residue yv.residue := by
  have hle : (xv.addmod yv scalarModulus).toNat ≤ scalarModulus := (addmod_lt xv yv).le
  have hsub : checkedSubFromR (xv.addmod yv scalarModulus) = .some (subFromR (xv.addmod yv scalarModulus)) := by
    rw [checkedSubFromR, if_pos hle]
  refine ⟨_, by rw [eqTerm, hsub]; rfl, ?_⟩
  rw [residue_addmod, residue_addmod, residue_addmod, residue_mulmod, residue_subFromR_addmod, residue_one, eqFactor]
  ring

theorem suffixProd_eq (ts : List Word) : suffixProd ts = (suffixProd ts).headD 1 :: (suffixProd ts).tail := by
  cases ts <;> rfl

theorem residue_suffixProd (ts : List Word) :
    ((suffixProd ts).headD 1).residue = (ts.map Word.residue).prod := by
  induction ts with
  | nil => exact residue_one
  | cons t ts ih =>
    rw [suffixProd, List.headD_cons, residue_mulmod, ih, List.map_cons, List.prod_cons, mul_comm]

/-- The factors of the entries multiply to the equality polynomial. -/
theorem prod_eqTerms {xs ys ts : List Word} (h : (xs.zip ys).mapM (fun p => eqTerm p.1 p.2) = .some ts) :
    (ts.map Word.residue).prod = EqPolynomial.mle (xs.map Word.residue) (ys.map Word.residue) := by
  rw [← eqMle_eq_prod]
  generalize xs.zip ys = l at h
  induction l generalizing ts with
  | nil =>
    cases h
    rfl
  | cons p l ih =>
    obtain ⟨t, ht, hres⟩ := residue_eqTerm p.1 p.2
    rw [List.mapM_cons, ht, Option.bind_eq_bind, Option.bind_some] at h
    obtain ⟨us, hus, h⟩ := Option.bind_eq_some_iff.mp h
    obtain rfl := Option.some.inj h
    rw [List.map_cons, List.prod_cons, List.map_cons, List.prod_cons, ih hus, hres]

theorem residue_eqPlusOneStep {state next : Word × Word} {xv yv higher : Word}
    (h : eqPlusOneStep state xv yv higher = .some next) :
    next.1.residue = state.1.residue + state.2.residue * ((1 - xv.residue) * yv.residue) * higher.residue ∧
      next.2.residue = state.2.residue * (xv.residue * (1 - yv.residue)) ∧ next.1.toNat < scalarModulus := by
  obtain ⟨result, lowerProd⟩ := state
  obtain ⟨notX, hx, h⟩ := Option.bind_eq_some_iff.mp h
  obtain ⟨notY, hy, h⟩ := Option.bind_eq_some_iff.mp h
  obtain rfl := Option.some.inj h
  refine ⟨?_, ?_, addmod_lt _ _⟩
  · simp only [residue_addmod, residue_mulmod, residue_one, residue_checkedSubFromR hx]
    ring
  · simp only [residue_addmod, residue_mulmod, residue_one, residue_checkedSubFromR hy]
    ring

/-- **The last loop of the `eqPlusOne`s**, over the words from the last. -/
theorem foldlM_eqPlusOneStep {xs ys ts : List Word} (hlen : ys.length = xs.length)
    (hts : (xs.zip ys).mapM (fun p => eqTerm p.1 p.2) = .some ts) {state next : Word × Word}
    (hstate : state.1.toNat < scalarModulus)
    (h : ((xs.zip ys).zip (suffixProd ts).tail).foldlM (fun s p => eqPlusOneStep s p.1.1 p.1.2 p.2) state =
      .some next) :
    next.1.residue = state.1.residue +
        state.2.residue * successorFrom (xs.map Word.residue) (ys.map Word.residue) ∧
      next.1.toNat < scalarModulus := by
  induction xs generalizing ys ts state with
  | nil =>
    cases h
    exact ⟨by simp [successorFrom], hstate⟩
  | cons x xs ih =>
    obtain ⟨y, ys, rfl⟩ := List.exists_cons_of_length_eq_add_one hlen
    have hlen' : ys.length = xs.length := by simpa using hlen
    obtain ⟨t, ht, -⟩ := residue_eqTerm x y
    rw [List.zip_cons_cons, List.mapM_cons, ht, Option.bind_eq_bind, Option.bind_some] at hts
    obtain ⟨us, hus, hts⟩ := Option.bind_eq_some_iff.mp hts
    obtain rfl := Option.some.inj hts
    rw [List.zip_cons_cons, suffixProd, List.tail_cons, suffixProd_eq us, List.zip_cons_cons, List.foldlM_cons] at h
    obtain ⟨mid, hmid, h⟩ := Option.bind_eq_some_iff.mp h
    obtain ⟨hresult, hlower, hlt⟩ := residue_eqPlusOneStep hmid
    obtain ⟨hres, hnext⟩ := ih hlen' hus hlt h
    refine ⟨?_, hnext⟩
    rw [hres, hresult, hlower, residue_suffixProd, prod_eqTerms hus, List.map_cons, List.map_cons, successorFrom]
    ring

theorem eq_map_of_mapM {α β : Type} {f : α → Option β} {g : α → β} {l : List α} {ys : List β}
    (h : l.mapM f = .some ys) (hg : ∀ a ∈ l, ∀ b, f a = .some b → b = g a) : ys = l.map g := by
  have hmap : l.map f = (l.map g).map .some := by
    rw [List.map_map]
    refine List.map_congr_left fun a ha => ?_
    obtain ⟨b, hb⟩ := isSome_of_mapM h ha
    rw [hb, hg a ha b hb]
    rfl
  rw [map_eq_of_mapM h] at hmap
  exact List.map_injective_iff.mpr (Option.some_injective β) hmap

section Meets

variable {mem : EvmMemory} {inside : Word → Prop} {len : Word} {xs ys : List Word}

theorem map_loads {address : Word → Word} (h : Loads mem inside address xs) (hword : len.toNat = xs.length) :
    ((List.range len.toNat).map fun i => address (BitVec.ofNat 256 i)).map mem = xs := by
  refine List.ext_getElem (by simp [hword]) fun i h1 h2 => ?_
  have hi := (h i h2).1
  rw [List.getElem?_eq_getElem h2, Option.some.injEq] at hi
  rw [List.getElem_map, List.getElem_map, List.getElem_range, hi]

/-- Where the body of the `eqPlusOne`s returns, every address was found. -/
theorem isSome_of_body {xAt yAt : Word → Option Word} {a : Answer} (h : eqPlusOneBody mem xAt yAt len = .some a) :
    ∀ i < len.toNat, ∃ b, yAt (BitVec.ofNat 256 i) = .some b := by
  intro i hi
  have hzero : len ≠ 0 := fun hz => by
    rw [hz] at hi
    exact absurd hi (Nat.not_lt_zero i)
  rw [eqPlusOneBody, if_neg hzero] at h
  obtain ⟨xAddresses, -, h⟩ := Option.bind_eq_some_iff.mp h
  obtain ⟨yAddresses, hy, -⟩ := Option.bind_eq_some_iff.mp h
  exact isSome_of_mapM hy (List.mem_range.mpr hi)

/-- **The body of the `eqPlusOne`s** sums the products. -/
theorem body_result {xAt yAt : Word → Option Word} {xAddress yAddress : Word → Word} {a : Answer}
    (hx : Loads mem inside xAddress xs) (hy : Loads mem inside yAddress ys) (hlen : ys.length = xs.length)
    (hword : len.toNat = xs.length) (hxAt : ∀ i b, xAt i = .some b → b = xAddress i)
    (hyAt : ∀ i b, yAt i = .some b → b = yAddress i) (h : eqPlusOneBody mem xAt yAt len = .some a) :
    a.result.residue = successorFrom (xs.map Word.residue) (ys.map Word.residue) ∧
      a.result.toNat < scalarModulus ∧ ∀ r ∈ a.reads, inside r := by
  have hzero : (0 : Word).residue = 0 := by simp [Word.residue]
  rw [eqPlusOneBody] at h
  split_ifs at h with hempty
  · obtain rfl := Option.some.inj h
    have hnil : xs = [] := by
      rw [hempty] at hword
      exact List.length_eq_zero_iff.mp hword.symm
    refine ⟨?_, show (0 : Word).toNat < scalarModulus by decide, fun r hr => absurd hr List.not_mem_nil⟩
    rw [hzero, hnil]
    simp [successorFrom]
  · obtain ⟨xAddresses, hxs, h⟩ := Option.bind_eq_some_iff.mp h
    obtain ⟨yAddresses, hys, h⟩ := Option.bind_eq_some_iff.mp h
    obtain ⟨ts, hts, h⟩ := Option.bind_eq_some_iff.mp h
    obtain ⟨state, hstate, h⟩ := Option.bind_eq_some_iff.mp h
    obtain rfl := Option.some.inj h
    obtain rfl := eq_map_of_mapM hxs fun i _ b hb => hxAt _ b hb
    obtain rfl := eq_map_of_mapM hys fun i _ b hb => hyAt _ b hb
    have hyword : len.toNat = ys.length := hword.trans hlen.symm
    rw [map_loads hx hword, map_loads hy hyword] at hts hstate
    obtain ⟨hres, hlt⟩ := foldlM_eqPlusOneStep hlen hts (by decide) hstate
    refine ⟨?_, hlt, fun r hr => ?_⟩
    · rw [hres, residue_one, hzero, zero_add, one_mul]
    · rcases List.mem_append.mp hr with hr | hr
      · obtain ⟨i, hi, rfl⟩ := List.mem_map.mp hr
        exact (hx i (hword ▸ List.mem_range.mp hi)).2
      · obtain ⟨i, hi, rfl⟩ := List.mem_map.mp hr
        exact (hy i (hyword ▸ List.mem_range.mp hi)).2

theorem eq_slot_of_index {p i a : Word} (h : index mem p i = .some a) : i < mem p ∧ a = slot p i := by
  rw [index] at h
  split_ifs at h with hi
  exact ⟨hi, (Option.some.inj h).symm⟩

end Meets

/-! ## The functions -/

section Functions

variable {mem : EvmMemory} {x y arr offset len : Word} {xs ys words : List Word}

/-- An address of one of two arrays. -/
def InEither (p : Word) (n : Nat) (q : Word) (m : Nat) (a : Word) : Prop := Inside p n a ∨ Inside q m a

theorem lengths_eq (hx : IsArray mem x xs) (hy : IsArray mem y ys) : mem x = mem y ↔ ys.length = xs.length := by
  rw [← BitVec.toNat_inj, length_toNat hx, length_toNat hy, eq_comm]

/-- The lengths loaded first are inside, and the rest is. -/
theorem inside_after {inside : Word → Prop} {heads reads : List Word} (hheads : ∀ r ∈ heads, inside r)
    (hreads : ∀ r ∈ reads, inside r) : ∀ r ∈ heads ++ reads, inside r := fun r hr =>
  (List.mem_append.mp hr).elim (hheads r) (hreads r)

theorem heads_inside (x y : Word) (n m : Nat) : ∀ r ∈ [x, y], InEither x n y m r := by
  intro r hr
  rcases List.mem_pair.mp hr with rfl | rfl
  · exact .inl (.inl rfl)
  · exact .inr (.inl rfl)

theorem head_inside {inside : Word → Prop} {p : Word} {n : Nat} (h : ∀ a, Inside p n a → inside a) :
    ∀ r ∈ [p], inside r := by
  intro r hr
  rw [List.mem_singleton.mp hr]
  exact h p (.inl rfl)

theorem mle_meets (hx : IsArray mem x xs) (hy : IsArray mem y ys) :
    Meets (mle mem x y) (.some (EqPolynomial.mle (xs.map Word.residue) (ys.map Word.residue)))
      (InEither x xs.length y ys.length) := by
  intro a ha
  rw [mle] at ha
  split_ifs at ha with hlen
  obtain rfl := Option.some.inj ha
  have hlen' := (lengths_eq hx hy).mp hlen
  have hxs := @loads_array _ (InEither x xs.length y ys.length) _ _ hx fun _ h => .inl h
  have hys := @loads_array _ (InEither x xs.length y ys.length) _ _ hy fun _ h => .inr h
  obtain ⟨hres, hlt⟩ := mleLoop_result hxs hys hlen' (length_toNat hx)
  exact ⟨congrArg some hres.symm, hlt, inside_after (heads_inside x y _ _) (reads_inside hxs hys hlen' (length_toNat hx))⟩

theorem mleReversed_meets (hx : IsArray mem x xs) (hy : IsArray mem y ys) :
    Meets (mleReversed mem x y) (.some (EqPolynomial.mle (xs.map Word.residue) (ys.reverse.map Word.residue)))
      (InEither x xs.length y ys.length) := by
  intro a ha
  rw [mleReversed] at ha
  split_ifs at ha with hlen
  obtain rfl := Option.some.inj ha
  have hlen' := (lengths_eq hx hy).mp hlen
  have hrev : ys.reverse.length = xs.length := by rw [List.length_reverse, hlen']
  have hxs := @loads_array _ (InEither x xs.length y ys.length) _ _ hx fun _ h => .inl h
  have hys := loads_reverse (n := mem x)
    (@loads_array _ (InEither x xs.length y ys.length) _ _ hy fun _ h => .inr h) (by rw [length_toNat hx, hlen'])
  obtain ⟨hres, hlt⟩ := mleLoop_result hxs hys hrev (length_toNat hx)
  exact ⟨congrArg some hres.symm, hlt, inside_after (heads_inside x y _ _) (reads_inside hxs hys hrev (length_toNat hx))⟩

/-- A comparison and the excess are the comparison where there is no excess. -/
theorem add_excess_eq {v e : Fr} : v = v + 2 ^ 256 * e ↔ e = 0 := by
  have hpow : (2 ^ 256 : Fr) ≠ 0 := pow_ne_zero 256 JoltField.two_ne_zero
  rw [left_eq_add, mul_eq_zero, or_iff_right hpow]

theorem lt_meets_iff (hx : IsArray mem x xs) (hy : IsArray mem y ys) :
    Meets (lt mem x y) (.some (ltExtension (xs.map Word.residue) (ys.map Word.residue)))
      (InEither x xs.length y ys.length) ↔ (xs.length = ys.length → ltExcess xs ys = 0) := by
  have hxs := @loads_array _ (InEither x xs.length y ys.length) _ _ hx fun _ h => .inl h
  have hys := @loads_array _ (InEither x xs.length y ys.length) _ _ hy fun _ h => .inr h
  constructor
  · intro h hlen
    have hword := (lengths_eq hx hy).mpr hlen.symm
    obtain ⟨hres, -⟩ := ltLoop_result hxs hys hlen.symm (length_toNat hx)
    have hvalue := (h _ (by rw [lt, if_pos hword])).1
    rw [Option.some.injEq] at hvalue
    exact add_excess_eq.mp (hvalue.trans hres)
  · intro h a ha
    rw [lt] at ha
    split_ifs at ha with hword
    obtain rfl := Option.some.inj ha
    have hlen := (lengths_eq hx hy).mp hword
    obtain ⟨hres, hlt⟩ := ltLoop_result hxs hys hlen (length_toNat hx)
    rw [h hlen.symm, mul_zero, add_zero] at hres
    exact ⟨congrArg some hres.symm, hlt, inside_after (heads_inside x y _ _) (reads_inside hxs hys hlen (length_toNat hx))⟩

theorem eqPlusOne_meets (hx : IsArray mem x xs) (hy : IsArray mem y ys) :
    Meets (eqPlusOne mem x y) (EqPlusOnePolynomial.evaluate (xs.map Word.residue) (ys.map Word.residue))
      (InEither x xs.length y ys.length) := by
  intro a ha
  rw [eqPlusOne] at ha
  split_ifs at ha with hword
  obtain ⟨b, hb, rfl⟩ := Option.map_eq_some_iff.mp ha
  have hlen := (lengths_eq hx hy).mp hword
  have hn : (mem x).toNat = ys.length := by rw [length_toNat hx, hlen]
  have hxs := loads_reverse (n := mem x)
    (@loads_array _ (InEither x xs.length y ys.length) _ _ hx fun _ h => .inl h) (length_toNat hx)
  have hys := loads_reverse (n := mem x)
    (@loads_array _ (InEither x xs.length y ys.length) _ _ hy fun _ h => .inr h) hn
  obtain ⟨hres, hlt, hreads⟩ := body_result hxs hys (by rw [List.length_reverse, List.length_reverse, hlen])
    (by rw [length_toNat hx, List.length_reverse]) (fun i b hb => (eq_slot_of_index hb).2)
    (fun i b hb => (eq_slot_of_index hb).2) hb
  refine ⟨?_, hlt, inside_after (heads_inside x y _ _) hreads⟩
  rw [evaluate_eq_successorFrom (by rw [List.length_map, List.length_map, hlen]), ← List.map_reverse,
    ← List.map_reverse, ← hres]
  rfl

/-! ## The slices -/

/-- The array has all of the slice. -/
def HasSlice (words : List Word) (offset len : Nat) : Prop := ∀ i < len, offset + i < words.length

theorem length_slice {offset len : Nat} (h : HasSlice words offset len) :
    ((words.drop offset).take len).length = len := by
  rcases Nat.eq_zero_or_pos len with rfl | hpos
  · rfl
  · have hlast := h (len - 1) (by omega)
    rw [List.length_take, List.length_drop]
    omega

theorem mleSlice_meets_iff (hx : IsArray mem x xs) (harr : IsArray mem arr words) :
    Meets (mleSlice mem x arr offset len) ((sliceOf words offset.toNat len.toNat).map fun slice =>
        EqPolynomial.mle (xs.map Word.residue) (slice.map Word.residue))
      (InEither x xs.length arr words.length) ↔
        (xs.length = len.toNat → HasSlice words offset.toNat len.toNat) := by
  have hlength : mem x = len ↔ xs.length = len.toNat := by rw [← BitVec.toNat_inj, length_toNat hx]
  constructor
  · intro h hlen
    obtain ⟨hvalue, -⟩ := h _ (by rw [mleSlice, if_pos (hlength.mpr hlen)])
    obtain ⟨slice, hslice, -⟩ := Option.map_eq_some_iff.mp hvalue
    exact sliceOf_isSome hslice
  · intro h a ha
    rw [mleSlice] at ha
    split_ifs at ha with hword
    obtain rfl := Option.some.inj ha
    have hlen := hlength.mp hword
    have hslice := h hlen
    have hxs := @loads_array _ (InEither x xs.length arr words.length) _ _ hx fun _ h => .inl h
    have hys := @loads_slice _ (InEither x xs.length arr words.length) _ _ _ _ harr hslice fun _ h => .inr h
    have hys' := (length_slice hslice).trans hlen.symm
    obtain ⟨hres, hlt⟩ := mleLoop_result hxs hys hys' hlen.symm
    rw [sliceOf_eq hslice]
    exact ⟨congrArg some hres.symm, hlt, inside_after (head_inside fun _ h => .inl h)
      (reads_inside hxs hys hys' hlen.symm)⟩

theorem mleSliceReversed_meets_iff (hx : IsArray mem x xs) (harr : IsArray mem arr words) :
    Meets (mleSliceReversed mem x arr offset len) ((sliceOf words offset.toNat len.toNat).map fun slice =>
        EqPolynomial.mle (xs.map Word.residue) (slice.reverse.map Word.residue))
      (InEither x xs.length arr words.length) ↔
        (xs.length = len.toNat → HasSlice words offset.toNat len.toNat) := by
  have hlength : mem x = len ↔ xs.length = len.toNat := by rw [← BitVec.toNat_inj, length_toNat hx]
  constructor
  · intro h hlen
    obtain ⟨hvalue, -⟩ := h _ (by rw [mleSliceReversed, if_pos (hlength.mpr hlen)])
    obtain ⟨slice, hslice, -⟩ := Option.map_eq_some_iff.mp hvalue
    exact sliceOf_isSome hslice
  · intro h a ha
    rw [mleSliceReversed] at ha
    split_ifs at ha with hword
    obtain rfl := Option.some.inj ha
    have hlen := hlength.mp hword
    have hslice := h hlen
    have hxs := @loads_array _ (InEither x xs.length arr words.length) _ _ hx fun _ h => .inl h
    have hys := loads_reverse (n := len)
      (@loads_slice _ (InEither x xs.length arr words.length) _ _ _ _ harr hslice fun _ h => .inr h)
      (length_slice hslice).symm
    have hys' : ((words.drop offset.toNat).take len.toNat).reverse.length = xs.length := by
      rw [List.length_reverse, length_slice hslice, hlen]
    obtain ⟨hres, hlt⟩ := mleLoop_result hxs hys hys' hlen.symm
    rw [sliceOf_eq hslice]
    exact ⟨congrArg some hres.symm, hlt, inside_after (head_inside fun _ h => .inl h)
      (reads_inside hxs hys hys' hlen.symm)⟩

theorem ltSliceReversed_meets_iff (hy : IsArray mem y ys) (harr : IsArray mem arr words) :
    Meets (ltSliceReversed mem arr offset len y) ((sliceOf words offset.toNat len.toNat).map fun slice =>
        ltExtension (slice.reverse.map Word.residue) (ys.map Word.residue))
      (InEither arr words.length y ys.length) ↔ (ys.length = len.toNat → HasSlice words offset.toNat len.toNat ∧
        ltExcess ((words.drop offset.toNat).take len.toNat).reverse ys = 0) := by
  have hlength : len = mem y ↔ ys.length = len.toNat := by rw [← BitVec.toNat_inj, length_toNat hy, eq_comm]
  have hresult (hlen : ys.length = len.toNat) (hslice : HasSlice words offset.toNat len.toNat) :=
    @ltLoop_result _ _ _ _ _ ((words.drop offset.toNat).take len.toNat).reverse _
      (loads_reverse (n := len)
        (@loads_slice _ (InEither arr words.length y ys.length) _ _ _ _ harr hslice fun _ h => .inl h)
        (length_slice hslice).symm)
      (loads_array hy fun _ h => .inr h) (by rw [List.length_reverse, length_slice hslice, hlen])
      (by rw [List.length_reverse, length_slice hslice])
  constructor
  · intro h hlen
    obtain ⟨hvalue, -⟩ := h _ (by rw [ltSliceReversed, if_pos (hlength.mpr hlen)])
    obtain ⟨slice, hsome, hvalue⟩ := Option.map_eq_some_iff.mp hvalue
    have hslice : HasSlice words offset.toNat len.toNat := sliceOf_isSome hsome
    rw [sliceOf_eq hslice, Option.some.injEq] at hsome
    subst hsome
    exact ⟨hslice, add_excess_eq.mp (hvalue.trans (hresult hlen hslice).1)⟩
  · intro h a ha
    rw [ltSliceReversed] at ha
    split_ifs at ha with hword
    obtain rfl := Option.some.inj ha
    have hlen := hlength.mp hword
    obtain ⟨hslice, hexcess⟩ := h hlen
    obtain ⟨hres, hlt⟩ := hresult hlen hslice
    rw [hexcess, mul_zero, add_zero] at hres
    have hrev := loads_reverse (n := len)
      (@loads_slice _ (InEither arr words.length y ys.length) _ _ _ _ harr hslice fun _ h => .inl h)
      (length_slice hslice).symm
    rw [sliceOf_eq hslice]
    exact ⟨congrArg some hres.symm, hlt, inside_after (head_inside fun _ h => .inr h)
      (reads_inside hrev (loads_array hy fun _ h => .inr h) (by rw [List.length_reverse, length_slice hslice, hlen])
        (by rw [List.length_reverse, length_slice hslice]))⟩

theorem eqPlusOneSliceReversed_meets (hx : IsArray mem x xs) (harr : IsArray mem arr words) :
    Meets (eqPlusOneSliceReversed mem x arr offset len) ((sliceOf words offset.toNat len.toNat).bind fun slice =>
        EqPlusOnePolynomial.evaluate (xs.map Word.residue) (slice.reverse.map Word.residue))
      (InEither x xs.length arr words.length) := by
  intro a ha
  rw [eqPlusOneSliceReversed] at ha
  split_ifs at ha with hword
  obtain ⟨b, hb, rfl⟩ := Option.map_eq_some_iff.mp ha
  have hlen : xs.length = len.toNat := by rw [← hword, length_toNat hx]
  have haddress (k b : Word) (h : (do index mem arr (← checkedAdd offset k)) = .some b) :
      b = slot arr (offset + k) ∧ offset.toNat + k.toNat < words.length := by
    obtain ⟨w, hw, h⟩ := Option.bind_eq_some_iff.mp h
    rw [checkedAdd] at hw
    split_ifs at hw with hsum
    obtain rfl := Option.some.inj hw
    obtain ⟨hlt, hslot⟩ := eq_slot_of_index h
    have hlt := BitVec.lt_def.mp hlt
    rw [length_toNat harr, BitVec.toNat_add, Nat.mod_eq_of_lt hsum] at hlt
    exact ⟨hslot, hlt⟩
  -- where it returns, every index of the slice was checked
  have hslice : HasSlice words offset.toNat len.toNat := by
    intro i hi
    obtain ⟨b, hb'⟩ := isSome_of_body hb i hi
    have hlt := (haddress _ b hb').2
    rwa [BitVec.toNat_ofNat, Nat.mod_eq_of_lt (hi.trans len.isLt)] at hlt
  have hxs := loads_reverse (n := len)
    (@loads_array _ (InEither x xs.length arr words.length) _ _ hx fun _ h => .inl h) hlen.symm
  have hys := @loads_slice _ (InEither x xs.length arr words.length) _ _ _ _ harr hslice fun _ h => .inr h
  obtain ⟨hres, hlt, hreads⟩ := body_result hxs hys (by rw [List.length_reverse, length_slice hslice, hlen])
    (by rw [List.length_reverse, hlen]) (fun i b hb => (eq_slot_of_index hb).2) (fun i b hb => (haddress i b hb).1) hb
  refine ⟨?_, hlt, inside_after (heads_inside x arr _ _) hreads⟩
  rw [sliceOf_eq hslice, Option.bind_some, evaluate_eq_successorFrom (by
    rw [List.length_map, List.length_map, List.length_reverse, length_slice hslice, hlen]), ← List.map_reverse,
    ← List.map_reverse, List.reverse_reverse, ← hres]
  rfl

end Functions

/-- **The equality, less-than and successor functions** of the contract revert, or return the
value of the Rust polynomial on the residues and load only words of their arrays: always, but
for slices that the array does not have, which three of the slice functions do not check, and
for words above the modulus that are compared. -/
theorem library_meets_iff {mem : EvmMemory} {x y arr : Word} {xs ys words : List Word} (hx : IsArray mem x xs)
    (hy : IsArray mem y ys) (harr : IsArray mem arr words) (offset len : Word) :
    let residues := List.map Word.residue
    let slice := sliceOf words offset.toNat len.toNat
    let ofTwo := InEither x xs.length y ys.length
    let ofSlice := InEither x xs.length arr words.length
    Meets (mle mem x y) (.some (EqPolynomial.mle (residues xs) (residues ys))) ofTwo ∧
    Meets (mleReversed mem x y) (.some (EqPolynomial.mle (residues xs) (residues ys.reverse))) ofTwo ∧
    Meets (eqPlusOne mem x y) (EqPlusOnePolynomial.evaluate (residues xs) (residues ys)) ofTwo ∧
    Meets (eqPlusOneSliceReversed mem x arr offset len)
      (slice.bind fun s => EqPlusOnePolynomial.evaluate (residues xs) (residues s.reverse)) ofSlice ∧
    (Meets (mleSlice mem x arr offset len) (slice.map fun s => EqPolynomial.mle (residues xs) (residues s)) ofSlice ↔
      (xs.length = len.toNat → HasSlice words offset.toNat len.toNat)) ∧
    (Meets (mleSliceReversed mem x arr offset len)
        (slice.map fun s => EqPolynomial.mle (residues xs) (residues s.reverse)) ofSlice ↔
      (xs.length = len.toNat → HasSlice words offset.toNat len.toNat)) ∧
    (Meets (lt mem x y) (.some (ltExtension (residues xs) (residues ys))) ofTwo ↔
      (xs.length = ys.length → ltExcess xs ys = 0)) ∧
    (Meets (ltSliceReversed mem arr offset len y)
        (slice.map fun s => ltExtension (residues s.reverse) (residues ys)) (InEither arr words.length y ys.length) ↔
      (ys.length = len.toNat → HasSlice words offset.toNat len.toNat ∧
        ltExcess ((words.drop offset.toNat).take len.toNat).reverse ys = 0)) :=
  ⟨mle_meets hx hy, mleReversed_meets hx hy, eqPlusOne_meets hx hy, eqPlusOneSliceReversed_meets hx harr,
    mleSlice_meets_iff hx harr, mleSliceReversed_meets_iff hx harr, lt_meets_iff hx hy,
    ltSliceReversed_meets_iff hy harr⟩

/-- Without a word above the modulus there is no excess. -/
theorem ltExcess_eq_zero {xs ys : List Word} (h : ∀ x ∈ xs, x.toNat ≤ scalarModulus) : ltExcess xs ys = 0 := by
  induction xs generalizing ys with
  | nil => rw [ltExcess]; simp
  | cons x xs ih =>
    cases ys with
    | nil => rw [ltExcess]; simp
    | cons y ys =>
      have hx : ¬ scalarModulus < x.toNat := Nat.not_lt.mpr (h x (List.mem_cons_self ..))
      rw [ltExcess, if_neg hx, ih fun w hw => h w (List.mem_cons_of_mem _ hw), mul_zero, add_zero]

/-- A memory of these words from its start on. -/
def ofWords (l : List Word) : EvmMemory := fun a => l.getD (a.toNat / 32) 0

/-- Two arrays of one word, the first above the modulus, and one of two. -/
def threeArrays : EvmMemory := ofWords [1, BitVec.ofNat 256 (scalarModulus + 1), 1, 1, 2, 3, 4]

theorem threeArrays_isArray :
    IsArray threeArrays 0 [BitVec.ofNat 256 (scalarModulus + 1)] ∧ IsArray threeArrays 64 [1] ∧
      IsArray threeArrays 128 [3, 4] := by
  refine ⟨⟨by decide, by decide, fun i hi => ?_⟩, ⟨by decide, by decide, fun i hi => ?_⟩,
    ⟨by decide, by decide, fun i hi => ?_⟩⟩
  · obtain rfl : i = 0 := by simpa using hi
    decide
  · obtain rfl : i = 0 := by simpa using hi
    decide
  · have hi : i < 2 := hi
    interval_cases i
    · decide
    · decide

/-- A slice of one word within the array, and words up to the modulus compared. -/
theorem library_meets_iff_slice :
    Meets (mleSlice threeArrays 0 128 1 1) ((sliceOf [3, 4] 1 1).map fun s =>
        EqPolynomial.mle ([BitVec.ofNat 256 (scalarModulus + 1)].map Word.residue) (s.map Word.residue))
      (InEither 0 1 128 2) := by
  obtain ⟨hx, hy, harr⟩ := threeArrays_isArray
  refine (library_meets_iff hx hy harr 1 1).2.2.2.2.1.mpr fun _ i hi => ?_
  have hi : i < 1 := hi
  show 1 + i < 2
  omega

/-- A word of the modulus and one is compared as another than one; a slice is read past the end
of the array. -/
theorem library_diverges :
    ¬ Meets (lt threeArrays 0 64)
        (.some (ltExtension ([BitVec.ofNat 256 (scalarModulus + 1)].map Word.residue) ([1].map Word.residue)))
        (InEither 0 1 64 1) ∧
      ¬ Meets (mleSlice threeArrays 64 128 2 1) ((sliceOf [3, 4] 2 1).map fun s =>
        EqPolynomial.mle ([1].map Word.residue) (s.map Word.residue)) (InEither 64 1 128 2) := by
  obtain ⟨hx, hy, harr⟩ := threeArrays_isArray
  constructor
  · intro h
    have hzero := (lt_meets_iff hx hy).mp h rfl
    have hwrap : scalarModulus < (BitVec.ofNat 256 (scalarModulus + 1)).toNat := by decide
    rw [ltExcess, if_pos hwrap, ltExcess, mul_zero, add_zero, residue_one] at hzero
    · exact one_ne_zero hzero
    · simp
  · intro h
    have hslice := (mleSlice_meets_iff hy harr).mp h rfl 0 (by decide)
    exact absurd hslice (by decide)

end EqPolynomialLibrary

end LightningJolt
