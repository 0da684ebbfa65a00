/-
The statement that the Dory contract hashes (`onchain-verifier/contracts/DoryOnChainVerifier.sol`)
against the one the circuit does: the values absorbed, in their order, and the product of the
folded coordinates, whose inverses the contract takes in one batch.
-/
import LightningJolt.DoryCircuit
import LightningJolt.OnChainBatched

namespace LightningJolt

open Finset

namespace DoryOnChainVerifier

/-! ## The contract -/

/-- `_mimcAbsorb`. -/
def mimcAbsorb (cts : List Word) (h msg : Word) : Word :=
  let x := cts.foldl (fun x c =>
    let t := (x.addmod h scalarModulus).addmod c scalarModulus
    let t2 := t.mulmod t scalarModulus
    (t.mulmod t2 scalarModulus).mulmod (t2.mulmod t2 scalarModulus) scalarModulus) msg
  ((x.addmod h scalarModulus).addmod h scalarModulus).addmod msg scalarModulus

/-- The two words that a word of the commitment is absorbed as. -/
def commitmentWords (val : Word) : List Word :=
  let mask : Word := 0xFFFFFFFFFFFFFFFF
  [(val &&& mask) ||| (((val >>> 64) &&& mask) <<< 64), ((val >>> 128) &&& mask) ||| (((val >>> 192) &&& mask) <<< 64)]

/-- What a call is about. -/
structure Statement where
  alphas : List Word
  betas : List Word
  gamma : Word
  d : Word
  s1Coords : List Word
  s2Coords : List Word
  commitment : Fin 12 → Word
  evaluation : Word

namespace Statement

variable (s : Statement)

/-- What `_computeInputHash` absorbs; an index out of bounds reverts. -/
def absorbed (sProduct : Word) (numRounds : Nat) : Option (List Word) := do
  let entries := fun l : List Word => (List.range numRounds).mapM (l[·]?)
  .some ((← entries s.alphas) ++ (← entries s.betas) ++ [s.gamma, s.d] ++ (← entries s.s1Coords) ++
    (← entries s.s2Coords) ++ (List.ofFn s.commitment).flatMap commitmentWords ++ [s.evaluation, sProduct])

/-- `_computeInputHash`. -/
def computeInputHash (cts : List Word) (sProduct : Word) (numRounds : Nat) : Option Word := do
  .some ((← s.absorbed sProduct numRounds).foldl (mimcAbsorb cts) 0)

end Statement

/-- `_modInverse`, by the precompile for powers. -/
def modInverse (a : Word) : Word := BitVec.ofNat 256 (a.toNat ^ (scalarModulus - 2) % scalarModulus)

/-- The products of the first entries. -/
def prefixLoop (product : Word) : List Word → List Word
  | [] => []
  | a :: as => product.mulmod a scalarModulus :: prefixLoop (product.mulmod a scalarModulus) as

/-- An iteration of the back-propagation: the entry behind still is the product up to it. -/
def backStep (alphas : List Word) (state : List Word × Word) (i : Nat) : List Word × Word :=
  (state.1.set i (state.2.mulmod (state.1.getD (i - 1) 0) scalarModulus),
    state.2.mulmod (alphas.getD i 0) scalarModulus)

/-- The inverses of `alphas`. -/
def batchInversion (alphas : List Word) : List Word :=
  match alphas with
  | [] => []
  | a :: as =>
    let products := a :: prefixLoop a as
    let state := ((List.range as.length).reverse.map (· + 1)).foldl (backStep alphas)
      (products, modInverse (products.getD as.length 0))
    state.1.set 0 state.2

/-- `addmod(1, R - (y % R), R)`. -/
def oneMinus (y : Word) : Word :=
  (1 : Word).addmod (BitVec.ofNat 256 (scalarModulus - y.toNat % scalarModulus)) scalarModulus

/-- `y % R`. -/
def modR (y : Word) : Word := BitVec.ofNat 256 (y.toNat % scalarModulus)

/-- `_computeSProduct`. -/
def computeSProduct (alphas s1Coords s2Coords : List Word) (numRounds : Nat) : Option Word :=
  if numRounds = 0 then .some 1
  else if numRounds ≤ alphas.length ∧ numRounds ≤ s1Coords.length ∧ numRounds ≤ s2Coords.length then
    let alphaInvs := batchInversion (alphas.take numRounds)
    let accs := (List.range numRounds).foldl (fun (accs : Word × Word) i =>
      let y := s1Coords.getD (numRounds - 1 - i) 0
      let x := s2Coords.getD (numRounds - 1 - i) 0
      let s1Factor := ((alphas.getD i 0).mulmod (oneMinus y) scalarModulus).addmod (modR y) scalarModulus
      let s2Factor := ((alphaInvs.getD i 0).mulmod (oneMinus x) scalarModulus).addmod (modR x) scalarModulus
      (accs.1.mulmod s1Factor scalarModulus, accs.2.mulmod s2Factor scalarModulus)) (1, 1)
    .some (accs.1.mulmod accs.2 scalarModulus)
  else .none

/-- `verifyWithChallenges`, over the Groth16 verifier, which takes the proof and the hash and
accepts or reverts. -/
def verifyWithChallenges (cts : List Word) (verifyProof : Word → Bool) (s : Statement) (numRounds : Nat) :
    Option Unit := do
  if s.alphas.length = numRounds ∧ s.betas.length = numRounds ∧ s.s1Coords.length = numRounds ∧
      s.s2Coords.length = numRounds then
    let sProduct ← computeSProduct s.alphas s.s1Coords s.s2Coords numRounds
    let inputHash ← s.computeInputHash cts sProduct numRounds
    if verifyProof inputHash then .some () else .none
  else .none

end DoryOnChainVerifier

/-! ## The values of the circuit -/

/-- A word split into limbs of 64 bits. -/
def Element.ofWord (w : Word) : Element := .split w.toNat

namespace Element

theorem reconstructScalar_ofWord (w : Word) : (ofWord w).reconstructScalar = w.residue :=
  reconstructScalar_split w.isLt

theorem value_ofWord (w : Word) : (ofWord w).value = w.residue := value_split w.isLt

/-- Two limbs next to each other. -/
theorem toNat_twoLimbs (a b : Word) :
    ((a &&& (0xFFFFFFFFFFFFFFFF : Word)) ||| ((b &&& (0xFFFFFFFFFFFFFFFF : Word)) <<< 64)).toNat =
      a.toNat % 2 ^ 64 + b.toNat % 2 ^ 64 * 2 ^ 64 := by
  have hmask : (0xFFFFFFFFFFFFFFFF : Word).toNat = 2 ^ 64 - 1 := rfl
  have hlow : a.toNat % 2 ^ 64 < 2 ^ 64 := Nat.mod_lt _ (by omega)
  have hfit : b.toNat % 2 ^ 64 * 2 ^ 64 < 2 ^ 256 := by
    have := Nat.mod_lt b.toNat (show 0 < 2 ^ 64 by omega)
    omega
  have hor := Nat.two_pow_add_eq_or_of_lt hlow (b.toNat % 2 ^ 64)
  rw [BitVec.toNat_or, BitVec.toNat_shiftLeft, BitVec.toNat_and, BitVec.toNat_and, hmask,
    Nat.and_two_pow_sub_one_eq_mod, Nat.and_two_pow_sub_one_eq_mod, Nat.shiftLeft_eq, Nat.mod_eq_of_lt hfit,
    Nat.or_comm, Nat.mul_comm _ (2 ^ 64), ← hor, Nat.add_comm]

theorem packFp_ofWord (w : Word) :
    (ofWord w).packFp = (DoryOnChainVerifier.commitmentWords w).map Word.residue := by
  simp only [packFp, DoryOnChainVerifier.commitmentWords, List.map_cons, List.map_nil, Word.residue,
    toNat_twoLimbs, BitVec.toNat_ushiftRight, Nat.shiftRight_eq_div_pow, Nat.cast_add, Nat.cast_mul, Nat.cast_pow,
    Nat.cast_ofNat]
  simp [ofWord, split]

end Element

/-! ## The batch of inverses -/

namespace DoryOnChainVerifier

/-- An entry's residue, and the product up to it. -/
def entry (l : List Word) (j : Nat) : Fr := (l.getD j 0).residue

def productTo (l : List Word) (j : Nat) : Fr := ∏ k ∈ range (j + 1), entry l k

theorem productTo_succ (l : List Word) (j : Nat) : productTo l (j + 1) = productTo l j * entry l (j + 1) :=
  prod_range_succ ..

theorem residue_modInverse {a : Word} (h : a.residue ≠ 0) : (modInverse a).residue = a.residue⁻¹ := by
  have hpos : 0 < scalarModulus := by decide
  have hlt : a.toNat ^ (scalarModulus - 2) % scalarModulus < 2 ^ 256 := (Nat.mod_lt _ hpos).trans (by decide)
  have hfermat : a.residue ^ (scalarModulus - 1) = 1 := ZMod.pow_card_sub_one_eq_one h
  have hsplit : scalarModulus - 1 = (scalarModulus - 2) + 1 := by decide
  rw [hsplit, pow_succ] at hfermat
  rw [Word.residue, modInverse, BitVec.toNat_ofNat, Nat.mod_eq_of_lt hlt, ZMod.natCast_mod, Nat.cast_pow]
  exact eq_inv_of_mul_eq_one_left hfermat

theorem length_prefixLoop (p : Word) (l : List Word) : (prefixLoop p l).length = l.length := by
  induction l generalizing p with
  | nil => rfl
  | cons a l ih => rw [prefixLoop, List.length_cons, List.length_cons, ih]

theorem entry_prefixLoop (p : Word) (l : List Word) {j : Nat} (hj : j < l.length) :
    entry (prefixLoop p l) j = p.residue * productTo l j := by
  induction l generalizing p j with
  | nil => exact absurd hj (Nat.not_lt_zero j)
  | cons a l ih =>
    cases j with
    | zero =>
      rw [prefixLoop, productTo, zero_add, prod_range_one]
      exact residue_mulmod p a
    | succ j =>
      have hrest : entry (prefixLoop (p.mulmod a scalarModulus) l) j = _ := ih _ (by simpa using hj)
      have hproduct : productTo (a :: l) (j + 1) = a.residue * productTo l j := by
        rw [productTo, prod_range_succ', mul_comm]
        rfl
      rw [hproduct, ← mul_assoc, ← residue_mulmod, ← hrest]
      rfl

/-- The products that the back-propagation starts from. -/
theorem entry_products (a : Word) (as : List Word) {j : Nat} (hj : j ≤ as.length) :
    entry (a :: prefixLoop a as) j = productTo (a :: as) j := by
  cases j with
  | zero => rw [productTo, zero_add, prod_range_one]; rfl
  | succ j =>
    have hproduct : productTo (a :: as) (j + 1) = a.residue * productTo as j := by
      rw [productTo, prod_range_succ', mul_comm]
      rfl
    rw [hproduct, ← entry_prefixLoop a as hj]
    rfl

theorem entry_set_self {l : List Word} {j : Nat} (hj : j < l.length) (w : Word) : entry (l.set j w) j = w.residue := by
  rw [entry, List.getD_eq_getElem?_getD, List.getElem?_set_self hj, Option.getD_some]

theorem entry_set_ne {l : List Word} {i j : Nat} (h : i ≠ j) (w : Word) : entry (l.set i w) j = entry l j := by
  rw [entry, entry, List.getD_eq_getElem?_getD, List.getElem?_set_ne h, List.getD_eq_getElem?_getD]

/-- **The back-propagation** from an entry: the entries from it down are inverted, and what is
left is the inverse of the first. -/
theorem foldl_backStep {alphas : List Word} (hne : ∀ j < alphas.length, entry alphas j ≠ 0) (k : Nat)
    (hk : k < alphas.length) (state : List Word × Word) (hlen : k < state.1.length)
    (hbefore : ∀ j ≤ k, entry state.1 j = productTo alphas j) (hinv : state.2.residue = (productTo alphas k)⁻¹) :
    let r := ((List.range k).reverse.map (· + 1)).foldl (backStep alphas) state
    r.1.length = state.1.length ∧ r.2.residue = (productTo alphas 0)⁻¹ ∧
      (∀ j, 1 ≤ j → j ≤ k → entry r.1 j = (entry alphas j)⁻¹) ∧ ∀ j, k < j → entry r.1 j = entry state.1 j := by
  induction k generalizing state with
  | zero => exact ⟨rfl, hinv, fun j h1 h2 => absurd h1 (by omega), fun j _ => rfl⟩
  | succ k ih =>
    have hproduct : productTo alphas k ≠ 0 := prod_ne_zero_iff.mpr fun j hj => hne j (by
      rw [mem_range] at hj
      omega)
    have hentry := hne (k + 1) hk
    have hsecond : (backStep alphas state (k + 1)).2.residue = (productTo alphas k)⁻¹ := by
      rw [backStep, residue_mulmod, hinv, productTo_succ, mul_inv, mul_assoc]
      show _ * ((entry alphas (k + 1))⁻¹ * entry alphas (k + 1)) = _
      rw [inv_mul_cancel₀ hentry, mul_one]
    obtain ⟨hlength, hlast, hinverted, hrest⟩ := ih (by omega) (backStep alphas state (k + 1))
      (by rw [backStep, List.length_set]; omega)
      (fun j hj => by rw [backStep, entry_set_ne (by omega)]; exact hbefore j (by omega)) hsecond
    rw [List.range_succ, List.reverse_append, List.reverse_singleton, List.singleton_append, List.map_cons,
      List.foldl_cons]
    refine ⟨by rw [hlength, backStep, List.length_set], hlast, fun j h1 h2 => ?_, fun j hj => ?_⟩
    · rcases Nat.lt_or_ge k j with hj | hj
      · obtain rfl : j = k + 1 := by omega
        have hbehind : (state.1.getD (k + 1 - 1) 0).residue = productTo alphas k := hbefore k (by omega)
        rw [hrest _ hj, backStep, entry_set_self hlen, residue_mulmod, hinv, hbehind, productTo_succ, mul_inv,
          mul_right_comm, inv_mul_cancel₀ hproduct, one_mul]
      · exact hinverted j h1 hj
    · rw [hrest j (by omega), backStep, entry_set_ne (by omega)]

/-- **The batch** holds the inverse of every entry. -/
theorem entry_batchInversion {alphas : List Word} (hne : ∀ j < alphas.length, entry alphas j ≠ 0) {j : Nat}
    (hj : j < alphas.length) : entry (batchInversion alphas) j = (entry alphas j)⁻¹ := by
  cases alphas with
  | nil => exact absurd hj (Nat.not_lt_zero j)
  | cons a as =>
    have hproduct : productTo (a :: as) as.length ≠ 0 := prod_ne_zero_iff.mpr fun j hj => hne j (by
      rw [mem_range] at hj
      exact hj)
    have hlast : ((a :: prefixLoop a as).getD as.length 0).residue = productTo (a :: as) as.length :=
      entry_products a as le_rfl
    have hlength : (a :: prefixLoop a as).length = as.length + 1 := by
      rw [List.length_cons, length_prefixLoop]
    obtain ⟨hlen, hfirst, hinverted, -⟩ := foldl_backStep hne as.length (Nat.lt_succ_self _)
      (a :: prefixLoop a as, modInverse ((a :: prefixLoop a as).getD as.length 0)) (by simp [length_prefixLoop])
      (fun j hj => entry_products a as hj) (by rw [residue_modInverse (hlast ▸ hproduct), hlast])
    rw [batchInversion]
    rcases Nat.eq_zero_or_pos j with rfl | hpos
    · rw [entry_set_self (by rw [hlen, hlength]; omega), hfirst, productTo, zero_add, prod_range_one]
    · rw [entry_set_ne (by omega), hinverted j hpos (by simpa using Nat.lt_succ_iff.mp hj)]

/-! ## The product of the folded coordinates -/

namespace Statement

variable (s : Statement)

/-- The product over all rounds, the coordinates from the last. -/
def foldedProduct (n : Nat) : Fr :=
  (∏ i ∈ range n, (entry s.alphas i * (1 - entry s.s1Coords (n - 1 - i)) + entry s.s1Coords (n - 1 - i))) *
    ∏ i ∈ range n, ((entry s.alphas i)⁻¹ * (1 - entry s.s2Coords (n - 1 - i)) + entry s.s2Coords (n - 1 - i))

/-- A call with as many entries as rounds. -/
structure OfRounds (n : Nat) : Prop where
  alphas : s.alphas.length = n
  betas : s.betas.length = n
  s1Coords : s.s1Coords.length = n
  s2Coords : s.s2Coords.length = n

end Statement

theorem residue_ofNat_mod (k : Nat) : Word.residue (BitVec.ofNat 256 (k % scalarModulus)) = (k : Fr) := by
  have hlt : k % scalarModulus < 2 ^ 256 := (Nat.mod_lt k (show 0 < scalarModulus by decide)).trans (by decide)
  rw [Word.residue, BitVec.toNat_ofNat, Nat.mod_eq_of_lt hlt, ZMod.natCast_mod]

theorem residue_modR (y : Word) : (modR y).residue = y.residue := residue_ofNat_mod y.toNat

theorem residue_oneMinus (y : Word) : (oneMinus y).residue = 1 - y.residue := by
  have hmod : y.toNat % scalarModulus < scalarModulus := Nat.mod_lt _ (by decide)
  have hlt : scalarModulus - y.toNat % scalarModulus < 2 ^ 256 :=
    (Nat.sub_le _ _).trans_lt (show scalarModulus < 2 ^ 256 by decide)
  have hzero : (scalarModulus : Fr) = 0 := ZMod.natCast_self scalarModulus
  have hone : (1 : Word).residue = 1 := by simp [Word.residue]
  have hsub : Word.residue (BitVec.ofNat 256 (scalarModulus - y.toNat % scalarModulus)) = -y.residue := by
    rw [Word.residue, BitVec.toNat_ofNat, Nat.mod_eq_of_lt hlt, Nat.cast_sub hmod.le, hzero, ZMod.natCast_mod,
      zero_sub]
    rfl
  rw [oneMinus, SumcheckVerifier.residue_addmod, hone, hsub, sub_eq_add_neg]

/-- **The product of the contract.** -/
theorem computeSProduct_eq {s : Statement} {n : Nat} (h : s.OfRounds n) (hne : ∀ j < n, entry s.alphas j ≠ 0) :
    ∃ p, computeSProduct s.alphas s.s1Coords s.s2Coords n = .some p ∧ p.residue = s.foldedProduct n := by
  have hone : (1 : Word).residue = 1 := by simp [Word.residue]
  rw [computeSProduct]
  split_ifs with hzero hlengths
  · refine ⟨1, rfl, ?_⟩
    rw [hzero, Statement.foldedProduct, prod_range_zero, prod_range_zero, mul_one, hone]
  · refine ⟨_, rfl, ?_⟩
    have htake : s.alphas.take n = s.alphas := List.take_of_length_le h.alphas.le
    rw [htake, residue_mulmod, Statement.foldedProduct]
    have hfold : ∀ m ≤ n,
        let accs := (List.range m).foldl (fun (accs : Word × Word) i =>
          (accs.1.mulmod (((s.alphas.getD i 0).mulmod (oneMinus (s.s1Coords.getD (n - 1 - i) 0)) scalarModulus).addmod
            (modR (s.s1Coords.getD (n - 1 - i) 0)) scalarModulus) scalarModulus,
          accs.2.mulmod ((((batchInversion s.alphas).getD i 0).mulmod (oneMinus (s.s2Coords.getD (n - 1 - i) 0))
            scalarModulus).addmod (modR (s.s2Coords.getD (n - 1 - i) 0)) scalarModulus) scalarModulus)) (1, 1)
        accs.1.residue = ∏ i ∈ range m, (entry s.alphas i * (1 - entry s.s1Coords (n - 1 - i)) +
            entry s.s1Coords (n - 1 - i)) ∧
          accs.2.residue = ∏ i ∈ range m, ((entry s.alphas i)⁻¹ * (1 - entry s.s2Coords (n - 1 - i)) +
            entry s.s2Coords (n - 1 - i)) := by
      intro m
      induction m with
      | zero => exact fun _ => ⟨hone, hone⟩
      | succ m ih =>
        intro hm
        obtain ⟨hfirst, hsecond⟩ := ih (by omega)
        have hinverse : ((batchInversion s.alphas).getD m 0).residue = (entry s.alphas m)⁻¹ :=
          entry_batchInversion (by rwa [h.alphas]) (by rw [h.alphas]; omega)
        simp only [List.range_succ, List.foldl_append, List.foldl_cons, List.foldl_nil, residue_mulmod,
          SumcheckVerifier.residue_addmod, residue_oneMinus, residue_modR, hinverse, hfirst, hsecond,
          prod_range_succ]
        exact ⟨rfl, rfl⟩
    obtain ⟨hfirst, hsecond⟩ := hfold n le_rfl
    rw [← hfirst, ← hsecond]
  · exact absurd ⟨h.alphas.ge, h.s1Coords.ge, h.s2Coords.ge⟩ hlengths

/-! ## What is absorbed -/

theorem absorbed_eq {s : Statement} {n : Nat} (h : s.OfRounds n) (sProduct : Word) :
    s.absorbed sProduct n = .some (s.alphas ++ s.betas ++ [s.gamma, s.d] ++ s.s1Coords ++ s.s2Coords ++
      (List.ofFn s.commitment).flatMap commitmentWords ++ [s.evaluation, sProduct]) := by
  have hentries (l : List Word) (hl : l.length = n) : (List.range n).mapM (l[·]?) = .some l := by
    have hget : ∀ i < n, l[i]? = .some (l.getD i 0) := by
      intro i hi
      rw [List.getElem?_eq_getElem (hl ▸ hi), List.getD_eq_getElem _ _ (hl ▸ hi)]
    rw [mapM_range hget, ← hl, tableOf_getD]
  rw [Statement.absorbed]
  simp only [hentries _ h.alphas, hentries _ h.betas, hentries _ h.s1Coords, hentries _ h.s2Coords,
    Option.bind_eq_bind, Option.bind_some]

end DoryOnChainVerifier

namespace DoryVerifierCircuit

open DoryOnChainVerifier

variable {GT G1 G2 : Type}

/-- The assignment has the values of the call, split into limbs. -/
structure SameValues (s : Statement) (w : DoryVerifierCircuit GT G1 G2) : Prop where
  alpha : ∀ i, w.alpha i = .ofWord (s.alphas.getD i 0)
  beta : ∀ i, w.beta i = .ofWord (s.betas.getD i 0)
  gamma : w.gamma = .ofWord s.gamma
  d : w.d = .ofWord s.d
  s1Coords : ∀ i, w.s1Coords i = .ofWord (s.s1Coords.getD i 0)
  s2Coords : ∀ i, w.s2Coords i = .ofWord (s.s2Coords.getD i 0)
  commitment : ∀ i, w.commitment i = .ofWord (s.commitment i)
  evaluation : w.evaluation = .ofWord s.evaluation

theorem scalarFold_eq (factor : Nat → Fr) :
    scalarFold (fun idx => factor idx.val) = ∏ i ∈ range numRounds, factor i := by
  rw [scalarFold, ← Fin.prod_univ_eq_prod_range, ← List.prod_ofFn, List.ofFn_eq_map, List.prod_eq_foldl,
    List.foldl_map]

theorem map_reconstruct {l : List Word} (hl : l.length = numRounds) {f : Fin numRounds → Element}
    (h : ∀ i, f i = .ofWord (l.getD i 0)) : (List.ofFn f).map Element.reconstructScalar = l.map Word.residue := by
  refine List.ext_getElem (by simp [hl]) fun i h1 h2 => ?_
  have hi : i < l.length := by simpa using h2
  rw [List.getElem_map, List.getElem_map, List.getElem_ofFn, h, Element.reconstructScalar_ofWord,
    List.getD_eq_getElem _ _ hi]

/-- The circuit folds the same product. -/
theorem SameValues.folded {s : Statement} {w : DoryVerifierCircuit GT G1 G2} (h : w.SameValues s) :
    w.s1Acc * w.s2Acc = s.foldedProduct numRounds := by
  have hrev (i : Fin numRounds) : (i.rev : Nat) = numRounds - 1 - i.val := by
    rw [Fin.val_rev]
    omega
  rw [s1Acc, s2Acc, Statement.foldedProduct, ← scalarFold_eq, ← scalarFold_eq]
  simp only [h.alpha, h.s1Coords, h.s2Coords, Element.value_ofWord, hrev]
  rfl

/-- **The circuit absorbs the same.** -/
theorem SameValues.absorbed {s : Statement} {w : DoryVerifierCircuit GT G1 G2} (h : w.SameValues s)
    (hrounds : s.OfRounds numRounds) {sProduct : Word} (hproduct : w.sProduct = .ofWord sProduct) :
    ∃ msgs, s.absorbed sProduct numRounds = .some msgs ∧ w.absorbed = msgs.map Word.residue := by
  refine ⟨_, absorbed_eq hrounds sProduct, ?_⟩
  have hcommitment : (List.ofFn w.commitment).flatMap Element.packFp =
      ((List.ofFn s.commitment).flatMap commitmentWords).map Word.residue := by
    rw [List.map_flatMap, show w.commitment = fun i => Element.ofWord (s.commitment i) from funext h.commitment]
    simp only [List.ofFn_eq_map, List.flatMap_map, Element.packFp_ofWord]
  rw [DoryVerifierCircuit.absorbed, map_reconstruct hrounds.alphas h.alpha, map_reconstruct hrounds.betas h.beta,
    map_reconstruct hrounds.s1Coords h.s1Coords, map_reconstruct hrounds.s2Coords h.s2Coords, hcommitment, h.gamma,
    h.d, h.evaluation, hproduct]
  simp only [List.map_append, List.map_cons, List.map_nil, Element.reconstructScalar_ofWord]

theorem length_absorbed (w : DoryVerifierCircuit GT G1 G2) : w.absorbed.length = 72 := by
  simp [DoryVerifierCircuit.absorbed, Element.packFp, List.length_ofFn]
  rfl

end DoryVerifierCircuit

namespace DoryOnChainVerifier

variable {GT G1 G2 : Type}

/-- With arrays of the rounds the Groth16 verifier answers on the hash of what is absorbed. -/
theorem verifyWithChallenges_eq (cts : List Word) (verifyProof : Word → Bool) {s : Statement} {n : Nat}
    (h : s.OfRounds n) {sProduct : Word} {msgs : List Word}
    (hproduct : computeSProduct s.alphas s.s1Coords s.s2Coords n = .some sProduct)
    (hmsgs : s.absorbed sProduct n = .some msgs) :
    verifyWithChallenges cts verifyProof s n =
      if verifyProof (msgs.foldl (mimcAbsorb cts) 0) then .some () else .none := by
  rw [verifyWithChallenges, if_pos ⟨h.alphas, h.betas, h.s1Coords, h.s2Coords⟩, hproduct]
  simp only [Statement.computeInputHash, hmsgs, Option.bind_eq_bind, Option.bind_some]

/-- **What the contract hashes**: a call is answered by the Groth16 verifier on the hash of its
values exactly when every array is as long as the rounds, however many these are. With as many
rounds as the circuit has it absorbs what the circuit absorbs for the same values, and the product
is the one the circuit folds; with another number it absorbs as many values as no assignment. -/
theorem hashes_statement (cts : List Word) (verifyProof : Word → Bool) {s : Statement} {n : Nat}
    (hne : ∀ a ∈ s.alphas, a.residue ≠ 0) :
    (¬ s.OfRounds n → verifyWithChallenges cts verifyProof s n = .none) ∧
    (s.OfRounds n → ∃ sProduct msgs, computeSProduct s.alphas s.s1Coords s.s2Coords n = .some sProduct ∧
      sProduct.residue = s.foldedProduct n ∧ s.absorbed sProduct n = .some msgs ∧
      verifyWithChallenges cts verifyProof s n =
        (if verifyProof (msgs.foldl (mimcAbsorb cts) 0) then .some () else .none) ∧
      (n = numRounds → ∀ w : DoryVerifierCircuit GT G1 G2, w.SameValues s → w.sProduct = .ofWord sProduct →
        w.absorbed = msgs.map Word.residue ∧ w.s1Acc * w.s2Acc = sProduct.residue) ∧
      (n ≠ numRounds → ∀ w : DoryVerifierCircuit GT G1 G2, w.absorbed ≠ msgs.map Word.residue)) := by
  constructor
  · intro h
    rw [verifyWithChallenges, if_neg fun hl => h ⟨hl.1, hl.2.1, hl.2.2.1, hl.2.2.2⟩]
  · intro h
    have hentry : ∀ j < n, entry s.alphas j ≠ 0 := fun j hj => by
      rw [entry, List.getD_eq_getElem _ _ (h.alphas ▸ hj)]
      exact hne _ (List.getElem_mem _)
    obtain ⟨sProduct, hproduct, hresidue⟩ := computeSProduct_eq h hentry
    have habsorbed := absorbed_eq h sProduct
    refine ⟨sProduct, _, hproduct, hresidue, habsorbed, verifyWithChallenges_eq cts verifyProof h hproduct habsorbed,
      ?_, ?_⟩
    · intro hn w hw hsame
      subst hn
      obtain ⟨msgs, hmsgs, hcircuit⟩ := hw.absorbed h hsame
      rw [habsorbed, Option.some.injEq] at hmsgs
      exact ⟨by rw [hcircuit, hmsgs], by rw [hw.folded, hresidue]⟩
    · intro hn w heq
      have hlength := congrArg List.length heq
      have hcommitment : ((List.ofFn s.commitment).flatMap commitmentWords).length = 24 := by
        simp [commitmentWords]
      rw [w.length_absorbed, List.length_map] at hlength
      simp only [List.length_append, List.length_cons, List.length_nil, h.alphas, h.betas, h.s1Coords, h.s2Coords,
        hcommitment] at hlength
      refine hn ?_
      rw [numRounds]
      omega

/-- A call of as many rounds as the circuit has, no two of its values alike. -/
def elevenRounds : Statement where
  alphas := [2, 3, 4, 5, 6, 7, 8, 9, 10, 11, 12]
  betas := [13, 14, 15, 16, 17, 18, 19, 20, 21, 22, 23]
  gamma := 24
  d := 25
  s1Coords := [26, 27, 28, 29, 30, 31, 32, 33, 34, 35, 36]
  s2Coords := [37, 38, 39, 40, 41, 42, 43, 44, 45, 46, 47]
  commitment i := BitVec.ofNat 256 (2 ^ 200 + 48 + i)
  evaluation := 60

/-- The assignment of a call's values, the witness of the rounds left at one. -/
def assignment (s : Statement) (sProduct : Word) : DoryVerifierCircuit Unit Unit Unit where
  inputHash := 0
  alpha i := .ofWord (s.alphas.getD i 0)
  beta i := .ofWord (s.betas.getD i 0)
  gamma := .ofWord s.gamma
  d := .ofWord s.d
  s1Coords i := .ofWord (s.s1Coords.getD i 0)
  s2Coords i := .ofWord (s.s2Coords.getD i 0)
  commitment i := .ofWord (s.commitment i)
  evaluation := .ofWord s.evaluation
  sProduct := .ofWord sProduct
  vmvC := ()
  vmvD2 := ()
  vmvE1 := ()
  d1Right _ := ()
  d2Right _ := ()
  accumE1 := ()
  finalE1 := ()
  finalP1G2 := ()
  finalP2G2 := ()
  d2Scaled _ := ()
  d1Scaled _ := ()
  cpScaled _ := ()
  cmScaled _ := ()
  d1LScaled _ := ()
  d1LSSetup _ := ()
  d1RSSetup _ := ()
  d2LScaled _ := ()
  d2LSSetup _ := ()
  d2RSSetup _ := ()
  htScaled := ()
  d2Final := ()
  d1Final := ()
  d2InitScaled := ()
  checkpointC _ := ()
  checkpointD1 _ := ()
  checkpointD2 _ := ()
  setupChi _ := ()
  setupG1 := ()
  setupG2 := ()
  setupH1 := ()
  setupH2 := ()

theorem assignment_sameValues (s : Statement) (sProduct : Word) : (assignment s sProduct).SameValues s :=
  ⟨fun _ => rfl, fun _ => rfl, rfl, rfl, fun _ => rfl, fun _ => rfl, fun _ => rfl, rfl⟩

theorem hashes_statement_eleven :
    let s := elevenRounds
    ∃ sProduct msgs, computeSProduct s.alphas s.s1Coords s.s2Coords 11 = .some sProduct ∧
      sProduct.residue = s.foldedProduct 11 ∧ s.absorbed sProduct 11 = .some msgs ∧
      verifyWithChallenges [7] (fun hash => hash == msgs.foldl (mimcAbsorb [7]) 0) s 11 = .some () ∧
      (assignment s sProduct).absorbed = msgs.map Word.residue ∧
      (assignment s sProduct).s1Acc * (assignment s sProduct).s2Acc = sProduct.residue := by
  intro s
  have hne : ∀ a ∈ s.alphas, a.residue ≠ 0 := by
    intro a ha hzero
    have hdvd : scalarModulus ∣ a.toNat := (ZMod.natCast_eq_zero_iff ..).mp hzero
    have hsmall : ∀ a ∈ elevenRounds.alphas, 0 < a.toNat ∧ a.toNat ≤ 12 := by simp [elevenRounds]
    have hmodulus : 12 < scalarModulus := by decide
    obtain ⟨hpos, hle⟩ := hsmall a ha
    exact Nat.not_le_of_lt (hle.trans_lt hmodulus) (Nat.le_of_dvd hpos hdvd)
  have hrounds : s.OfRounds 11 := ⟨rfl, rfl, rfl, rfl⟩
  obtain ⟨sProduct, hproduct, -⟩ := computeSProduct_eq hrounds fun j hj => by
    rw [entry, List.getD_eq_getElem _ _ (hrounds.alphas ▸ hj)]
    exact hne _ (List.getElem_mem _)
  have habsorbed := absorbed_eq hrounds sProduct
  generalize hmsgs : s.alphas ++ s.betas ++ [s.gamma, s.d] ++ s.s1Coords ++ s.s2Coords ++
    (List.ofFn s.commitment).flatMap commitmentWords ++ [s.evaluation, sProduct] = msgs at habsorbed
  obtain ⟨p, ms, hp, hresidue, hms, hverify, hsame, -⟩ :=
    (@hashes_statement Unit Unit Unit [7] (fun hash => hash == msgs.foldl (mimcAbsorb [7]) 0) s 11 hne).2 hrounds
  obtain rfl : sProduct = p := Option.some.inj (hproduct.symm.trans hp)
  obtain rfl : msgs = ms := Option.some.inj (habsorbed.symm.trans hms)
  obtain ⟨hcircuit, hfold⟩ := hsame rfl (assignment s sProduct) (assignment_sameValues s sProduct) rfl
  refine ⟨sProduct, msgs, hp, hresidue, hms, ?_, hcircuit, hfold⟩
  rw [hverify, if_pos (beq_self_eq_true _)]

/-- A call of one round. -/
def oneRound : Statement where
  alphas := [1]
  betas := [1]
  gamma := 1
  d := 1
  s1Coords := [0]
  s2Coords := [0]
  commitment := 0
  evaluation := 1

/-- A call of one round reaches the Groth16 verifier. -/
theorem one_round_not_rejected : 1 ≠ numRounds ∧
    verifyWithChallenges [] (fun _ => true) oneRound 1 = .some () := by
  refine ⟨by decide, ?_⟩
  have hrounds : oneRound.OfRounds 1 := ⟨rfl, rfl, rfl, rfl⟩
  have hone : (1 : Word).residue ≠ 0 := by simp [Word.residue]
  obtain ⟨p, hp, -⟩ := computeSProduct_eq hrounds fun j hj => by
    obtain rfl : j = 0 := by omega
    exact hone
  rw [verifyWithChallenges_eq [] (fun _ => true) hrounds hp (absorbed_eq hrounds p)]
  exact if_pos rfl

end DoryOnChainVerifier

end LightningJolt
